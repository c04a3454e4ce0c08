import Xv6.Vm.Map
import Xv6.Vm.User

/-!
# xv6 — `copyin` and `copyinstr`

Reading user memory, for any page table at all: these functions follow it and write none of it. What they see of it is the
byte at each address that `walkaddr` translates (`ubyte`); they stop at the first address without one.

* `wp_copyin`: the bytes up to that address.
* `copyout_image` and `copyin_image`: in the image of a process, what is read and written of physical memory.
* `copyinstr_exact`: the string up to its NUL, if that comes before this address and within `max` bytes.
-/

namespace Xv6.Vm

open Hoare Finset ByteBuf

variable {a len max srcva va : Nat} {l : List UInt8}

variable {E : Panic → Prop} {L : Layout} {m m' : Mem} {pt : Nat}

/-- The physical page that users access at the virtual page `v`. There is no memory at the physical address 0, and `walkaddr`
does not return it. -/
def userPage (m : Mem) (pt v : Nat) : Option Nat :=
  if v < 2 ^ 26 then (translate m pt (v * PGSIZE)).bind fun w => if w.user = true ∧ w.pa ≠ 0 then some w.pa else none
  else none

/-- The byte at the user address `a`. -/
def ubyte (m : Mem) (pt a : Nat) : Option UInt8 :=
  (userPage m pt (a / PGSIZE)).map fun x => peek (m.page x) (a % PGSIZE)

theorem userPage_some {v x : Nat} : userPage m pt v = some x ↔
    v < 2 ^ 26 ∧ ∃ w, translate m pt (v * PGSIZE) = some w ∧ (w.user = true ∧ w.pa ≠ 0) ∧ w.pa = x := by
  unfold userPage
  split
  · rename_i hv
    simp only [Option.bind_eq_some_iff, Option.ite_none_right_eq_some, Option.some.injEq]
    exact (and_iff_right hv).symm
  · rename_i hv
    exact ⟨nofun, fun h => absurd h.1 hv⟩

/-- `walkaddr` finds these pages. -/
theorem wp_walkaddr_page {Q : Nat → Mem → Prop} (h : Q ((userPage m pt (va / PGSIZE)).getD 0) m) :
    wp E (walkaddr pt (PGROUNDDOWN va)) Q m := by
  rw [walkaddr, PGROUNDDOWN]
  unfold userPage at h
  generalize va / PGSIZE = v at h
  by_cases hv : v < 2 ^ 26
  · rw [if_neg (page_lt_maxva hv), wp_bind]
    refine wp_walk_path (page_lt hv) ?_
    rw [if_pos hv, translate_eq (page_lt hv)] at h
    cases hTable : tableAt m pt (path (v * PGSIZE)) with
    | none =>
      rw [hTable] at h
      exact wp_pure.mpr h
    | some t =>
      rw [hTable, Option.bind_some] at h
      dsimp only [Option.map_some]
      rw [wp_bind, wp_entry]
      generalize m.word t (PX 0 (v * PGSIZE)) = w at h
      by_cases hValid : w.valid = true
      · rw [if_pos hValid, Option.bind_some] at h
        rw [hValid, Bool.true_and]
        by_cases hUser : w.user = true
        · rw [if_pos hUser, wp_pure]
          by_cases hZero : w.pa = 0
          · rw [if_neg fun hBoth => hBoth.2 hZero] at h
            rw [hZero]
            exact h
          · rwa [if_pos ⟨hUser, hZero⟩] at h
        · rw [if_neg hUser, wp_pure]
          rwa [if_neg fun hBoth => hUser hBoth.1] at h
      · rw [if_neg hValid] at h
        rw [Bool.not_eq_true] at hValid
        rw [hValid, Bool.false_and, if_neg Bool.false_ne_true, wp_pure]
        exact h
  · rw [if_pos (by unfold MAXVA PGSIZE; omega), wp_pure]
    rwa [if_neg hv] at h

/-! ## One turn of the loops -/

theorem offset_eq (va : Nat) : va - PGROUNDDOWN va = va % PGSIZE := by
  have hDiv := Nat.div_add_mod va PGSIZE
  rw [PGROUNDDOWN, Nat.mul_comm]
  omega

/-- The bytes of a turn are in one page. -/
theorem ubyte_turn {x j : Nat} (hx : userPage m pt (va / PGSIZE) = some x) (hj : va % PGSIZE + j < PGSIZE) :
    ubyte m pt (va + j) = some (peek (m.page x) (va % PGSIZE + j)) := by
  have hDiv := Nat.div_add_mod va PGSIZE
  have hPage : (va + j) / PGSIZE = va / PGSIZE := by
    refine Nat.div_eq_of_lt_le ?_ ?_
    · rw [Nat.mul_comm]
      omega
    · rw [Nat.succ_mul, Nat.mul_comm]
      omega
  have hOff : (va + j) % PGSIZE = va % PGSIZE + j := by
    have hDiv' := Nat.div_add_mod (va + j) PGSIZE
    rw [hPage] at hDiv'
    omega
  rw [ubyte, hPage, hx, hOff]
  rfl

theorem ubyte_none (h : userPage m pt (va / PGSIZE) = none) : ubyte m pt va = none := by
  rw [ubyte, h]
  rfl

/-- The next turn starts at the next page. -/
theorem next_turn {x : Nat} (hx : userPage m pt (va / PGSIZE) = some x) :
    u64 (PGROUNDDOWN va + PGSIZE) = va + (PGSIZE - va % PGSIZE) := by
  have hDiv := Nat.div_add_mod va PGSIZE
  have hMod : va % PGSIZE < PGSIZE := Nat.mod_lt _ (by decide)
  rw [PGROUNDDOWN, next_page (userPage_some.mp hx).1, Nat.succ_mul, Nat.mul_comm (va / PGSIZE)]
  omega

/-! ## copyin -/

/-- The bytes `l` are those from `srcva` on: `len` of them, or all up to the first address that users cannot access. -/
structure CopiedIn (m : Mem) (pt srcva len : Nat) (l : List UInt8) : Prop where
  le    : l.length ≤ len
  bytes : ∀ j < l.length, ubyte m pt (srcva + j) = l[j]?
  stop  : l.length < len → ubyte m pt (srcva + l.length) = none

theorem CopiedIn.nil (h : 0 < len → ubyte m pt srcva = none) : CopiedIn m pt srcva len [] :=
  ⟨Nat.zero_le len, fun _ hj => absurd hj (Nat.not_lt_zero _), h⟩

/-- The bytes of a turn, and those of the turns after it. -/
theorem CopiedIn.append {rest : List UInt8} (hLe : l.length ≤ len)
    (hBytes : ∀ j < l.length, ubyte m pt (srcva + j) = l[j]?)
    (h : CopiedIn m pt (srcva + l.length) (len - l.length) rest) : CopiedIn m pt srcva len (l ++ rest) := by
  obtain ⟨hRest, hBytes', hStop⟩ := h
  refine ⟨?_, fun j hj => ?_, fun hShort => ?_⟩
  · rw [List.length_append]
    omega
  · rw [List.length_append] at hj
    by_cases hFirst : j < l.length
    · rw [List.getElem?_append_left hFirst, hBytes j hFirst]
    · rw [List.getElem?_append_right (by omega), ← hBytes' _ (by omega)]
      congr 1
      omega
  · rw [List.length_append] at hShort ⊢
    rw [← Nat.add_assoc]
    exact hStop (by omega)

/-- The last turn may end before the end of its page. -/
theorem CopiedIn.turn {b : Nat} (h : CopiedIn m pt a len l) (hEnd : a = b ∨ len = 0) :
    CopiedIn m pt b len l := by
  rcases hEnd with rfl | rfl
  · exact h
  · obtain rfl := List.length_eq_zero_iff.mp (Nat.le_zero.mp h.le)
    exact .nil fun hBad => absurd hBad (lt_irrefl 0)

theorem wp_copyinLoop {fuel : Nat} {Q : Bool × List UInt8 → Mem → Prop} (hFuel : len ≤ fuel)
    (h : ∀ l, CopiedIn m pt srcva len l → Q (decide (l.length = len), l) m) : wp E (copyinLoop pt fuel srcva len) Q m := by
  induction fuel generalizing srcva len Q with
  | zero =>
    obtain rfl := Nat.le_zero.mp hFuel
    rw [copyinLoop, wp_pure]
    exact h [] (.nil fun hBad => absurd hBad (lt_irrefl 0))
  | succ fuel ih =>
    cases len with
    | zero =>
      rw [copyinLoop, wp_pure]
      exact h [] (.nil fun hBad => absurd hBad (lt_irrefl 0))
    | succ len =>
      rw [copyinLoop, wp_bind]
      refine wp_walkaddr_page ?_
      cases hx : userPage m pt (srcva / PGSIZE) with
      | none =>
        rw [Option.getD_none, if_pos rfl, wp_pure]
        exact h [] (.nil fun _ => ubyte_none hx)
      | some x =>
        obtain ⟨-, w, -, hw, hPa⟩ := userPage_some.mp hx
        have hMod : srcva % PGSIZE < PGSIZE := Nat.mod_lt _ (by decide)
        rw [Option.getD_some, if_neg (hPa ▸ hw.2), offset_eq, next_turn hx, wp_bind, getBytes, wp_bind, wp_get, wp_pure]
        generalize hn : min (PGSIZE - srcva % PGSIZE) (len + 1) = n
        generalize hl : (List.range n).map (fun j => peek (m.page x) (srcva % PGSIZE + j)) = l
        have hLength : l.length = n := by
          rw [← hl, List.length_map, List.length_range]
        have hBytes : ∀ j < l.length, ubyte m pt (srcva + j) = l[j]? := by
          intro j hj
          rw [hLength] at hj
          rw [ubyte_turn hx (by omega), ← hl, List.getElem?_map, List.getElem?_range hj]
          rfl
        rw [wp_bind]
        refine ih (by omega) fun rest hRest => wp_pure.mpr ?_
        have hAll : CopiedIn m pt srcva (len + 1) (l ++ rest) := by
          refine .append (by omega) hBytes ?_
          rw [hLength]
          exact hRest.turn (by omega)
        have hQ := h _ hAll
        rwa [List.length_append, hLength, show decide (n + rest.length = len + 1) = decide (rest.length = len + 1 - n) from
          decide_eq_decide.mpr (by omega)] at hQ

/-- `copyin` copies up to the first address that users cannot access, and changes nothing. -/
theorem wp_copyin {Q : Bool × List UInt8 → Mem → Prop}
    (h : ∀ l, CopiedIn m pt srcva len l → Q (decide (l.length = len), l) m) : wp E (copyin pt srcva len) Q m :=
  wp_copyinLoop le_rfl h

/-! ## The image of a process -/

/-- Every page that the `len` bytes at `va` touch is below `MAXVA` and mapped for users. -/
def UserRange (m : Mem) (pt va len : Nat) : Prop :=
  ∀ a, va ≤ a → a < va + len → a / PGSIZE * PGSIZE < MAXVA ∧ ∃ w, translate m pt (a / PGSIZE * PGSIZE) = some w ∧ w.user = true

/-- Where the byte at the address `a` is in physical memory: its page, and its place in the page. -/
def place (m : Mem) (pt a : Nat) : Option (Nat × Nat) :=
  (translate m pt (a / PGSIZE * PGSIZE)).map fun w => (w.pa, a % PGSIZE)

def Mem.deref (m : Mem) (q : Nat × Nat) : UInt8 := peek (m.page q.1) q.2

variable {A B : Multiset Nat} {f : Nat → Option Pte}

/-- The map of a page table is what `walk` finds. -/
theorem PgTable.translate {v : Nat} (hTree : PgTable m pt A f) (hv : v < 2 ^ 26) : Vm.translate m pt (v * PGSIZE) = f v := by
  have hWp : wp (fun _ => False) (walk pt (v * PGSIZE) false)
      (fun r m' => m' = m ∧ r.elim (f v = none) fun e => dec (m.word e.1 e.2) = Radix.Slot.ofOption (f v)) m :=
    wp_walk hTree hv (fun hNone => ⟨rfl, hNone⟩) fun t hAt => ⟨rfl, entry_at hTree hv hAt⟩
  obtain ⟨r, m', hWalk, rfl, hEntry⟩ := hWp.total
  rw [Vm.translate, hWalk]
  cases r with
  | none => exact hEntry.symm
  | some e =>
    have hDec := hEntry
    dsimp only [Option.elim_some] at hDec ⊢
    cases hf : f v with
    | none =>
      rw [hf] at hDec
      exact if_neg (Bool.eq_false_iff.mp (dec_empty.mp hDec))
    | some w =>
      rw [hf] at hDec
      obtain ⟨hValid, -, rfl⟩ := dec_leaf.mp hDec
      exact if_pos hValid

theorem page_below : a / PGSIZE * PGSIZE < MAXVA ↔ a / PGSIZE < 2 ^ 26 := by
  unfold MAXVA PGSIZE
  omega

theorem Image.userPage (h : Image L m pt A B f) (v : Nat) : Vm.userPage m pt v = (userPte f v).map Pte.pa := by
  refine Option.ext fun x => userPage_some.trans ?_
  rw [Option.map_eq_some_iff]
  constructor
  · rintro ⟨hv, w, hw, ⟨hUser, -⟩, rfl⟩
    rw [h.tree.translate hv] at hw
    exact ⟨w, userPte_some.mpr ⟨hv, hw, hUser⟩, rfl⟩
  · rintro ⟨w, hw, rfl⟩
    obtain ⟨hv, hf, hUser⟩ := userPte_some.mp hw
    have hOk : PageOk L w.pa := h.valid.right.ok_of_mem (h.within _ _ hw)
    exact ⟨hv, w, by rw [h.tree.translate hv, hf], ⟨hUser, hOk.ne_zero⟩, rfl⟩

theorem Image.ubyte (h : Image L m pt A B f) (a : Nat) : Vm.ubyte m pt a = umem m f a := by
  rw [Vm.ubyte, h.userPage, Option.map_map]
  rfl

theorem Image.userRange (h : Image L m pt A B f) :
    UserRange m pt va len ↔ ∀ a, va ≤ a → a < va + len → (userPte f (a / PGSIZE)).isSome := by
  refine forall_congr' fun a => forall_congr' fun _ => forall_congr' fun _ => ?_
  rw [Option.isSome_iff_exists, page_below]
  constructor
  · rintro ⟨hv, w, hw, hUser⟩
    rw [h.tree.translate hv] at hw
    exact ⟨w, userPte_some.mpr ⟨hv, hw, hUser⟩⟩
  · rintro ⟨w, hw⟩
    obtain ⟨hv, hf, hUser⟩ := userPte_some.mp hw
    exact ⟨hv, w, by rw [h.tree.translate hv, hf], hUser⟩

/-- The places of a page table stay while its map does. -/
theorem PgTable.place_eq (h : PgTable m pt A f) (h' : PgTable m' pt A f) (ha : a < MAXVA) :
    place m' pt a = place m pt a := by
  have hv : a / PGSIZE < 2 ^ 26 := by
    unfold MAXVA at ha
    unfold PGSIZE
    omega
  rw [place, place, h.translate hv, h'.translate hv]

theorem Image.place (h : Image L m pt A B f) {w : Pte} (hw : userPte f (a / PGSIZE) = some w) :
    Vm.place m pt a = some (w.pa, a % PGSIZE) := by
  obtain ⟨hv, hf, -⟩ := userPte_some.mp hw
  rw [Vm.place, h.tree.translate hv, hf]
  rfl

/-- User memory, read at its place. -/
theorem Image.deref (h : Image L m pt A B f) {b : UInt8} (hb : umem m' f a = some b) :
    (Vm.place m pt a).map m'.deref = some b := by
  obtain ⟨w, hw, rfl⟩ := Option.map_eq_some_iff.mp hb
  rw [h.place hw]
  rfl

/-- What `copyout` writes of physical memory. -/
structure Written (pt va len : Nat) (m m' : Mem) : Prop where
  free   : m'.freelist = m.freelist
  places : ∀ a < MAXVA, place m' pt a = place m pt a
  other  : ∀ q, q.2 < PGSIZE → (∀ a, va ≤ a → a < va + len → place m pt a ≠ some q) → m'.deref q = m.deref q

theorem Touched.written (h : Image L m pt A B f) (hTouched : Touched f va (va + len) m m') :
    Written pt va len m m' where
  free := hTouched.free
  places a ha := h.tree.place_eq (hTouched.image h).tree ha
  other q hq hOut := by
    obtain ⟨x, o⟩ := q
    rw [Mem.deref, Mem.deref]
    by_cases hUser : ∃ v w, userPte f v = some w ∧ w.pa = x
    · obtain ⟨v, w, hw, rfl⟩ := hUser
      -- the byte of the user page that is at this place
      have hDiv : (v * PGSIZE + o) / PGSIZE = v := by
        rw [Nat.mul_comm, Nat.mul_add_div (by decide), Nat.div_eq_of_lt hq, Nat.add_zero]
      have hMod : (v * PGSIZE + o) % PGSIZE = o := by
        rw [Nat.mul_comm, Nat.mul_add_mod, Nat.mod_eq_of_lt hq]
      have hPlace := h.place (a := v * PGSIZE + o) (by rw [hDiv]; exact hw)
      rw [hMod] at hPlace
      have hSame := hTouched.bytes (v * PGSIZE + o) (by
        by_contra hIn
        exact hOut _ (by omega) (by omega) hPlace)
      rw [umem, umem, hDiv, hw, hMod] at hSame
      exact Option.some.inj hSame
    · rw [hTouched.other x fun v w hw hPa => absurd ⟨v, w, hw, hPa⟩ hUser]

theorem CopiedIn.eq {src : List UInt8} (h : CopiedIn m pt srcva src.length l)
    (hSrc : ∀ j < src.length, ubyte m pt (srcva + j) = src[j]?) : l = src := by
  have hLength : l.length = src.length := by
    by_contra hne
    have hLt := lt_of_le_of_ne h.le hne
    have hStop := h.stop hLt
    rw [hSrc _ hLt, List.getElem?_eq_none_iff] at hStop
    omega
  refine List.ext_getElem? fun j => ?_
  by_cases hj : j < src.length
  · rw [← h.bytes j (hLength ▸ hj), hSrc j hj]
  · rw [List.getElem?_eq_none (by omega), List.getElem?_eq_none (by omega)]

theorem copyout_image (h : Image L m pt A B f) (va : Nat) (src : List UInt8) :
    ∃ r m', copyout pt va src m = .ok (r, m') ∧ (r = true ↔ UserRange m pt va src.length) ∧ Written pt va src.length m m' ∧
      (r = true → (∀ j < src.length, (place m pt (va + j)).map m'.deref = src[j]?) ∧
        copyin pt va src.length m' = .ok ((true, src), m')) := by
  refine (wp_copyout (Q := fun r m' => (r = true ↔ UserRange m pt va src.length) ∧ Written pt va src.length m m' ∧
    (r = true → (∀ j < src.length, (Vm.place m pt (va + j)).map m'.deref = src[j]?) ∧
      copyin pt va src.length m' = .ok ((true, src), m'))) h fun k m' hOut => ?_).total
  have hLe := hOut.le
  have hTouched : Touched f va (va + src.length) m m' := hOut.stored.touched.mono le_rfl (by
    rw [List.length_take]
    omega)
  refine ⟨?_, hTouched.written h, fun hAll => ?_⟩
  · rw [decide_eq_true_iff, h.userRange]
    refine ⟨fun hAll => hAll ▸ hOut.mapped, fun hMapped => ?_⟩
    by_contra hne
    have hLt := lt_of_le_of_ne hLe hne
    have hSome := hMapped (va + k) (by omega) (by omega)
    rw [hOut.stop hLt] at hSome
    exact nomatch hSome
  · obtain rfl := of_decide_eq_true hAll
    have hBytes : ∀ j < src.length, umem m' f (va + j) = src[j]? := by
      intro j hj
      obtain ⟨w, hw⟩ := Option.isSome_iff_exists.mp (hOut.mapped (va + j) (by omega) (by omega))
      rw [hOut.stored.bytes, List.take_length, if_pos (by omega), umem, hw, Nat.add_sub_cancel_left,
        List.getD_eq_getElem _ _ hj, List.getElem?_eq_getElem hj]
      rfl
    refine ⟨fun j hj => ?_, ?_⟩
    · rw [List.getElem?_eq_getElem hj]
      exact h.deref ((hBytes j hj).trans (List.getElem?_eq_getElem hj))
    · have hImage := hTouched.image h
      have hWp : wp (fun _ => False) (copyin pt va src.length) (fun r m'' => r = (true, src) ∧ m'' = m') m' := by
        refine wp_copyin fun l hIn => ?_
        obtain rfl := hIn.eq fun j hj => (hImage.ubyte _).trans (hBytes j hj)
        exact ⟨by rw [decide_eq_true rfl], rfl⟩
      obtain ⟨_, _, hRun, rfl, rfl⟩ := hWp.total
      exact hRun

theorem copyin_image (h : Image L m pt A B f) (va len : Nat) :
    ∃ r l, copyin pt va len m = .ok ((r, l), m) ∧ (r = true ↔ UserRange m pt va len) ∧ l.length ≤ len ∧
      (∀ j < l.length, (place m pt (va + j)).map m.deref = l[j]?) ∧ (r = true → l.length = len) := by
  have hWp : wp (fun _ => False) (copyin pt va len)
      (fun r m' => m' = m ∧ CopiedIn m pt va len r.2 ∧ r.1 = decide (r.2.length = len)) m :=
    wp_copyin fun l hIn => ⟨rfl, hIn, rfl⟩
  obtain ⟨⟨r, l⟩, m', hRun, rfl, hIn, hr⟩ := hWp.total
  dsimp only at hIn hr
  rw [hr] at hRun
  refine ⟨_, l, hRun, ?_, hIn.le, fun j hj => ?_, of_decide_eq_true⟩
  · rw [decide_eq_true_iff, h.userRange]
    constructor
    · rintro rfl a ha ha'
      obtain ⟨j, rfl⟩ := Nat.exists_eq_add_of_le ha
      have hByte := hIn.bytes j (by omega)
      rw [h.ubyte, List.getElem?_eq_getElem (by omega)] at hByte
      obtain ⟨w, hw, -⟩ := Option.map_eq_some_iff.mp hByte
      exact Option.isSome_of_eq_some hw
    · intro hMapped
      by_contra hne
      have hLt := lt_of_le_of_ne hIn.le hne
      obtain ⟨w, hw⟩ := Option.isSome_iff_exists.mp (hMapped (va + l.length) (by omega) (by omega))
      have hStop := hIn.stop hLt
      rw [h.ubyte, umem, hw] at hStop
      cases hStop
  · rw [List.getElem?_eq_getElem hj]
    refine h.deref ?_
    rw [← h.ubyte, hIn.bytes j hj, List.getElem?_eq_getElem hj]

/-! ## copyinstr -/

/-- A string with its NUL, or bytes without one. -/
structure UpToNul (got_null : Bool) (l : List UInt8) : Prop where
  found : got_null = true → ∃ t, l = t ++ [0] ∧ 0 ∉ t
  none  : got_null = false → 0 ∉ l

theorem UpToNul.append {got_null : Bool} {rest : List UInt8} (hl : 0 ∉ l) (h : UpToNul got_null rest) :
    UpToNul got_null (l ++ rest) where
  found hGot := by
    obtain ⟨t, rfl, ht⟩ := h.found hGot
    refine ⟨l ++ t, (List.append_assoc ..).symm, fun hMem => ?_⟩
    rcases List.mem_append.mp hMem with hMem | hMem
    · exact hl hMem
    · exact ht hMem
  none hGot hMem := by
    rcases List.mem_append.mp hMem with hMem | hMem
    · exact hl hMem
    · exact h.none hGot hMem

/-- What the inner loop writes. -/
structure StrTurn (b : Page) (n p : Nat) (got_null : Bool) (l : List UInt8) : Prop where
  le     : l.length ≤ n
  bytes  : ∀ j < l.length, l[j]? = some (peek b (p + j))
  string : UpToNul got_null l
  all    : got_null = false → l.length = n

theorem strLoop_spec (b : Page) (n p : Nat) : StrTurn b n p (strLoop b n p).1 (strLoop b n p).2 := by
  induction n generalizing p with
  | zero => exact ⟨le_rfl, nofun, ⟨nofun, fun _ => List.not_mem_nil⟩, fun _ => rfl⟩
  | succ n ih =>
    rw [strLoop]
    by_cases hNul : peek b p = 0
    · rw [if_pos hNul]
      refine ⟨by simp, fun j hj => ?_, ⟨fun _ => ⟨[], rfl, List.not_mem_nil⟩, nofun⟩, nofun⟩
      obtain rfl : j = 0 := Nat.lt_one_iff.mp hj
      rw [Nat.add_zero, hNul]
      rfl
    · rw [if_neg hNul]
      obtain ⟨hLe, hBytes, hString, hAll⟩ := ih (p + 1)
      have hHead : (0 : UInt8) ∉ [peek b p] := fun hMem => hNul (List.mem_singleton.mp hMem).symm
      refine ⟨Nat.succ_le_succ hLe, fun j hj => ?_, .append hHead hString, fun hGot => congrArg (· + 1) (hAll hGot)⟩
      cases j with
      | zero => rfl
      | succ j =>
        rw [List.getElem?_cons_succ, hBytes j (Nat.lt_of_succ_lt_succ hj)]
        congr 2
        omega

/-- What `copyinstr` writes to `dst`. -/
structure CopiedStr (m : Mem) (pt srcva max : Nat) (got_null : Bool) (l : List UInt8) : Prop where
  le     : l.length ≤ max
  bytes  : CopiedIn m pt srcva (if got_null then l.length else max) l
  string : UpToNul got_null l

theorem CopiedStr.nil (h : 0 < max → ubyte m pt srcva = none) : CopiedStr m pt srcva max false [] :=
  ⟨Nat.zero_le max, .nil h, ⟨nofun, fun _ => List.not_mem_nil⟩⟩

/-- A turn without a NUL, and the turns after it. -/
theorem CopiedStr.append {got_null : Bool} {rest : List UInt8} (hLe : l.length ≤ max)
    (hBytes : ∀ j < l.length, ubyte m pt (srcva + j) = l[j]?) (hNul : 0 ∉ l)
    (hEnd : a = srcva + l.length ∨ max - l.length = 0) (h : CopiedStr m pt a (max - l.length) got_null rest) :
    CopiedStr m pt srcva max got_null (l ++ rest) := by
  obtain ⟨hRest, hIn, hString⟩ := h
  refine ⟨?_, ?_, hString.append hNul⟩
  · rw [List.length_append]
    omega
  · cases got_null with
    | true =>
      refine .append ?_ hBytes ?_
      · rw [if_pos rfl, List.length_append]
        omega
      · rw [if_pos rfl] at hIn
        rw [if_pos rfl, List.length_append, Nat.add_sub_cancel_left]
        exact hIn.turn (by omega)
    | false => exact .append hLe hBytes (hIn.turn hEnd)

theorem wp_copyinstrLoop {fuel : Nat} {Q : Bool × List UInt8 → Mem → Prop} (hFuel : max ≤ fuel)
    (h : ∀ got_null l, CopiedStr m pt srcva max got_null l → Q (got_null, l) m) :
    wp E (copyinstrLoop pt fuel srcva max) Q m := by
  induction fuel generalizing srcva max Q with
  | zero =>
    obtain rfl := Nat.le_zero.mp hFuel
    rw [copyinstrLoop, wp_pure]
    exact h false [] (.nil fun hBad => absurd hBad (lt_irrefl 0))
  | succ fuel ih =>
    cases max with
    | zero =>
      rw [copyinstrLoop, wp_pure]
      exact h false [] (.nil fun hBad => absurd hBad (lt_irrefl 0))
    | succ max =>
      rw [copyinstrLoop, wp_bind]
      refine wp_walkaddr_page ?_
      cases hx : userPage m pt (srcva / PGSIZE) with
      | none =>
        rw [Option.getD_none, if_pos rfl, wp_pure]
        exact h false [] (.nil fun _ => ubyte_none hx)
      | some x =>
        obtain ⟨-, w, -, hw, hPa⟩ := userPage_some.mp hx
        have hMod : srcva % PGSIZE < PGSIZE := Nat.mod_lt _ (by decide)
        rw [Option.getD_some, if_neg (hPa ▸ hw.2), offset_eq, next_turn hx, wp_bind, wp_get]
        generalize hn : min (PGSIZE - srcva % PGSIZE) (max + 1) = n
        obtain ⟨hLe, hTurn, hString, hFull⟩ := strLoop_spec (m.page x) n (srcva % PGSIZE)
        generalize strLoop (m.page x) n (srcva % PGSIZE) = r at hLe hTurn hString hFull ⊢
        obtain ⟨got_null, l⟩ := r
        have hBytes : ∀ j < l.length, ubyte m pt (srcva + j) = l[j]? := by
          intro j hj
          have hj' : j < n := Nat.lt_of_lt_of_le hj hLe
          rw [ubyte_turn hx (by omega)]
          exact (hTurn j hj).symm
        have hMax : l.length ≤ max + 1 := by
          dsimp only at hLe
          omega
        cases got_null with
        | true => exact wp_pure.mpr (h true l ⟨hMax, ⟨le_rfl, hBytes, fun hBad => absurd hBad (lt_irrefl _)⟩, hString⟩)
        | false =>
          obtain rfl : l.length = n := hFull rfl
          refine wp_bind.mpr (ih (by omega) fun got_null rest hRest => wp_pure.mpr (h got_null _ ?_))
          exact .append hMax hBytes (hString.none rfl) (by omega) hRest

/-- The string at `srcva` has its NUL at `srcva + k`, and all pages up to there are mapped for users. -/
structure StringAt (m : Mem) (pt srcva k : Nat) : Prop where
  mapped : ∀ j ≤ k, (userPage m pt ((srcva + j) / PGSIZE)).isSome
  nul    : ubyte m pt (srcva + k) = some 0
  first  : ∀ j < k, ubyte m pt (srcva + j) ≠ some 0

/-- A copy with a NUL ends where the string does. -/
theorem CopiedStr.stringAt (h : CopiedStr m pt srcva max true l) :
    ∃ k, l.length = k + 1 ∧ StringAt m pt srcva k := by
  obtain ⟨t, rfl, ht⟩ := h.string.found rfl
  have hLength : (t ++ [0]).length = t.length + 1 := by
    rw [List.length_append, List.length_singleton]
  refine ⟨t.length, hLength, fun j hj => ?_, ?_, fun j hj hNul => ?_⟩
  · have hByte := h.bytes.bytes j (by omega)
    rw [List.getElem?_eq_getElem (by omega)] at hByte
    obtain ⟨x, hx, -⟩ := Option.map_eq_some_iff.mp hByte
    rw [hx]
    rfl
  · rw [h.bytes.bytes _ (by omega), List.getElem?_concat_length]
  · rw [h.bytes.bytes j (by omega), List.getElem?_append_left hj] at hNul
    exact ht (List.mem_of_getElem? hNul)

/-- A copy without a NUL ends before the string does. -/
theorem CopiedStr.not_stringAt {k : Nat} (h : CopiedStr m pt srcva max false l) (hk : k < max) :
    ¬StringAt m pt srcva k := by
  intro hAt
  by_cases hShort : k < l.length
  · have hByte := h.bytes.bytes k hShort
    rw [hAt.nul] at hByte
    exact h.string.none rfl (List.mem_of_getElem? hByte.symm)
  · obtain ⟨x, hx⟩ := Option.isSome_iff_exists.mp (hAt.mapped l.length (by omega))
    have hStop : ubyte m pt (srcva + l.length) = Option.none := h.bytes.stop (lt_of_le_of_lt (not_lt.mp hShort) hk)
    rw [ubyte, hx] at hStop
    exact nomatch hStop

theorem StringAt.unique {k k' : Nat} (h : StringAt m pt srcva k) (h' : StringAt m pt srcva k') : k = k' := by
  rcases Nat.lt_trichotomy k k' with hLt | hEq | hLt
  · exact absurd h.nul (h'.first k hLt)
  · exact hEq
  · exact absurd h'.nul (h.first k' hLt)

/-- `copyinstr` succeeds exactly when the string ends within `max` bytes, all of them mapped, and then copies it with its NUL.
It needs no page after that of the NUL. -/
theorem copyinstr_exact (m : Mem) (pt srcva max : Nat) :
    ∃ got_null l, copyinstr pt srcva max m = .ok ((got_null, l), m) ∧ l.length ≤ max ∧
      (got_null = true ↔ ∃ k < max, StringAt m pt srcva k) ∧
      ∀ k < max, StringAt m pt srcva k → l.length = k + 1 ∧ ∀ j ≤ k, l[j]? = ubyte m pt (srcva + j) := by
  have hWp : wp (fun _ => False) (copyinstr pt srcva max)
      (fun r m' => m' = m ∧ CopiedStr m pt srcva max r.1 r.2) m :=
    wp_copyinstrLoop le_rfl fun got_null l hCopied => ⟨rfl, hCopied⟩
  obtain ⟨⟨got_null, l⟩, m', hRun, rfl, hCopied⟩ := hWp.total
  dsimp only at hCopied
  have hMax := hCopied.le
  refine ⟨got_null, l, hRun, hMax, ?_⟩
  cases got_null with
  | true =>
    obtain ⟨k, hLength, hAt⟩ := hCopied.stringAt
    refine ⟨iff_of_true rfl ⟨k, by omega, hAt⟩, fun k' _ hAt' => ?_⟩
    obtain rfl := hAt.unique hAt'
    exact ⟨hLength, fun j hj => (hCopied.bytes.bytes j (by omega)).symm⟩
  | false =>
    refine ⟨iff_of_false Bool.false_ne_true fun ⟨k, hk, hAt⟩ => hCopied.not_stringAt hk hAt, fun k hk hAt => ?_⟩
    exact absurd hAt (hCopied.not_stringAt hk)

end Xv6.Vm
