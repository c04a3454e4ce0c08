import Xv6.Vm.Model
import Xv6.Lib.Pool
import Xv6.Lib.Radix
import Mathlib.Order.Interval.Finset.Nat

/-!
# xv6 — what the page-table functions do

A page table is a radix tree of three levels (`PgTable m pt A f`): made of the pages `A`, it maps the
virtual page `v` to the entry `f v`. Each function on page tables is specified by the map before and
after and by the pages it holds before and after (`Pool.Moves`), so that no page is lost, doubled or
written by somebody else; none of them panics when it is called on such a table.
-/

namespace Xv6.Vm

open Hoare Finset ByteBuf

/-! ## Pages -/

/-- The free pages, and the bytes of all pages. -/
def pool : Pool Mem Nat Page where
  free m := m.freelist
  cell := Mem.page

/-- `x` is the address of a page that `kfree` accepts. -/
structure PageOk (L : Layout) (x : Nat) : Prop where
  aligned : x % PGSIZE = 0
  low     : L.kend ≤ x
  high    : x < PHYSTOP

variable {E : Panic → Prop} {L : Layout} {m m' : Mem}

theorem PageOk.lt {x : Nat} (h : PageOk L x) : x < 2 ^ 64 := Nat.lt_trans h.high (by decide)

theorem PageOk.ne_zero {x : Nat} (h : PageOk L x) : x ≠ 0 := by
  have hKernel := L.inKernel
  have hLow := h.low
  unfold PGSIZE at hKernel
  omega

/-- The bytes of page `x` are `b`. -/
def Mem.put (m : Mem) (x : Nat) (b : Page) : Mem := { m with page := upd m.page x b }

@[simp] theorem Mem.put_page (x : Nat) (b : Page) : (m.put x b).page = upd m.page x b := rfl
@[simp] theorem Mem.put_freelist (x : Nat) (b : Page) : (m.put x b).freelist = m.freelist := rfl

theorem Mem.put_put (x : Nat) (b b' : Page) : (m.put x b).put x b' = m.put x b' := by
  rw [Mem.put, Mem.put_page, upd_upd]
  rfl

/-- Word `i` of page `x` is `w`. -/
def Mem.setWord (m : Mem) (x i : Nat) (w : Pte) : Mem := m.put x (setField (m.page x) (8 * i) 8 w.toNat)

theorem word_congr {x : Nat} (h : m'.page x = m.page x) : m'.word x = m.word x := by
  funext i
  rw [Mem.word, h, Mem.word]

theorem word_put_of_ne {x y : Nat} (b : Page) (h : x ≠ y) : (m.put y b).word x = m.word x :=
  word_congr (upd_of_ne h)

/-- A page of zeros has zeros as words. -/
theorem word_zero (x i : Nat) : (m.put x fun _ => 0).word x i = 0 := by
  have hField : field (fun _ => 0 : Page) (8 * i) 8 = 0 := by
    refine (le_congr fun j _ => ?_).trans (le_zero 8)
    unfold peek
    split <;> rfl
  rw [Mem.word, Mem.put_page, upd_self, hField]
  rfl

theorem Mem.setWord_word {x i : Nat} {w : Pte} (hi : i < 512) :
    (m.setWord x i w).word = upd m.word x (upd (m.word x) i w) := by
  funext y
  by_cases hy : y = x
  · subst hy
    rw [upd_self]
    funext j
    rw [Mem.word, Mem.setWord, Mem.put_page, upd_self]
    by_cases hj : j = i
    · have hFit : 8 * i + 8 ≤ PGSIZE := by
        unfold PGSIZE
        omega
      have hLt : w.toNat < 256 ^ 8 := w.isLt
      rw [hj, upd_self, field_setField_same hFit, Nat.mod_eq_of_lt hLt, BitVec.ofNat_toNat, BitVec.setWidth_eq]
    · rw [upd_of_ne hj, field_setField_disjoint (by omega)]
      rfl
  · rw [upd_of_ne hy, Mem.setWord, word_put_of_ne _ hy]

@[simp] theorem wp_store {pa : Nat} {f : Page → Page} {Q : Unit → Mem → Prop} :
    wp E (store pa f) Q m ↔ Q () (m.put pa (f (m.page pa))) :=
  wp_modify

@[simp] theorem wp_entry {pt i : Nat} {Q : Pte → Mem → Prop} :
    wp E (entry pt i) Q m ↔ Q (m.word pt i) m := by
  rw [entry, wp_bind, wp_get, wp_pure]

@[simp] theorem wp_setEntry {pt i : Nat} {w : Pte} {Q : Unit → Mem → Prop} :
    wp E (setEntry pt i w) Q m ↔ Q () (m.setWord pt i w) :=
  wp_store

/-- A page that is held is written. -/
theorem moves_store {x : Nat} {b : Page} {A : Multiset Nat} (hx : x ∈ A) : pool.Moves A A m (m.put x b) where
  conserve := rfl
  frame _ hy := upd_of_ne fun hEq => hy (Multiset.mem_add.mpr (.inr (hEq ▸ hx)))

theorem moves_setWord {x i : Nat} {w : Pte} {A : Multiset Nat} (hx : x ∈ A) : pool.Moves A A m (m.setWord x i w) :=
  moves_store hx

theorem wp_kalloc {Q : Option Nat → Mem → Prop} (hNone : Q none m)
    (hSome : ∀ r m', pool.Moves 0 {r} m m' → r ∈ pool.free m → Q (some r) m') :
    wp E kalloc Q m := by
  rw [kalloc, wp_bind, wp_get]
  cases hFree : m.freelist with
  | nil => exact wp_pure.mpr hNone
  | cons r next =>
    simp only [memset, wp_bind, wp_modify, wp_store, wp_pure]
    refine hSome r _ ⟨?_, fun x hx => ?_⟩ ?_
    · simp only [pool, hFree, add_zero, ← Multiset.cons_coe, ← Multiset.singleton_add]
      exact add_comm _ _
    · refine upd_of_ne fun hEq => hx ?_
      simp [pool, hFree, hEq]
    · simp [pool, hFree]

theorem wp_kfree {x : Nat} {Q : Unit → Mem → Prop} (hx : PageOk L x)
    (h : ∀ m', pool.Moves {x} 0 m m' → Q () m') : wp E (kfree L x) Q m := by
  have hGuard : ¬ (x % PGSIZE ≠ 0 ∨ x < L.kend ∨ PHYSTOP ≤ x) := by
    obtain ⟨h₁, h₂, h₃⟩ := hx
    omega
  rw [kfree, wp_bind, wp_when]
  refine ⟨fun hBad => absurd hBad hGuard, fun _ => ?_⟩
  simp only [memset, wp_bind, wp_modify, wp_store]
  refine h _ ⟨?_, fun y hy => ?_⟩
  · simp only [pool, add_zero, ← Multiset.cons_coe, ← Multiset.singleton_add]
    exact add_comm _ _
  · exact upd_of_ne fun hEq => hy (by simp [hEq])

/-! ## Entries -/

/-- How the entries of a page table are read. -/
def dec (w : Pte) : Slot Nat Pte :=
  if w.valid then if w.rwx then .leaf w else .node w.pa else .empty

theorem dec_empty {w : Pte} : dec w = .empty ↔ w.valid = false := by
  unfold dec
  split
  · split <;> simp_all
  · simp_all

theorem dec_node {w : Pte} {c : Nat} : dec w = .node c ↔ w.valid = true ∧ w.rwx = false ∧ w.pa = c := by
  unfold dec
  split
  · split <;> simp_all
  · simp_all

theorem dec_leaf {w w' : Pte} : dec w = .leaf w' ↔ w.valid = true ∧ w.rwx = true ∧ w = w' := by
  unfold dec
  split
  · split <;> simp_all
  · simp_all

theorem PA2PTE_flags (pa : Nat) (flags : BitVec 10) : Pte.flags (PA2PTE pa flags) = flags := by
  refine BitVec.eq_of_getLsbD_eq fun i hi => ?_
  simp [PA2PTE, Pte.flags]

theorem PA2PTE_pa {pa : Nat} (h : pa % PGSIZE = 0) (hLt : pa < 2 ^ 64) (flags : BitVec 10) :
    Pte.pa (PA2PTE pa flags) = pa := by
  have hEq : (PA2PTE pa flags >>> 10) <<< 12 = BitVec.ofNat 64 pa := by
    refine BitVec.eq_of_getLsbD_eq fun i hi => ?_
    rw [BitVec.getLsbD_shiftLeft, BitVec.getLsbD_ushiftRight, PA2PTE, BitVec.getLsbD_or, BitVec.getLsbD_shiftLeft,
      BitVec.getLsbD_ushiftRight, BitVec.getLsbD_setWidth]
    by_cases hLow : i < 12
    · have hBit : pa.testBit i = false := by
        rw [← Nat.div_mul_cancel (Nat.dvd_of_mod_eq_zero h), show PGSIZE = 2 ^ 12 from rfl, Nat.testBit_mul_two_pow,
          decide_eq_false (by omega), Bool.false_and]
      have hZero : (BitVec.ofNat 64 pa).getLsbD i = false := by rw [BitVec.getLsbD_ofNat, hBit, Bool.and_false]
      rw [hZero]
      simp [hLow]
    · rw [show 10 + (i - 12) - 10 = i - 12 by omega, show 12 + (i - 12) = i by omega]
      simp [hLow, hi, show ¬ (10 + (i - 12) < 10) by omega, show 10 + (i - 12) < 64 by omega]
  rw [Pte.pa, hEq, BitVec.toNat_ofNat, Nat.mod_eq_of_lt hLt]

/-- `*pte &= ~PTE_U` -/
theorem pa_clear (w : Pte) : Pte.pa (w &&& ~~~PTE_U.setWidth 64) = w.pa := by
  unfold Pte.pa
  congr 1
  refine BitVec.eq_of_getLsbD_eq fun i hi => ?_
  simp only [BitVec.getLsbD_shiftLeft, BitVec.getLsbD_ushiftRight, BitVec.getLsbD_and, BitVec.getLsbD_not]
  by_cases hLow : i < 12
  · simp [hLow]
  · have hU : (PTE_U.setWidth 64).getLsbD (10 + (i - 12)) = false := by
      rw [BitVec.getLsbD_setWidth, BitVec.getLsbD_of_ge _ _ (by omega), Bool.and_false]
    rw [hU]
    simp [show 10 + (i - 12) < 64 by omega]

theorem flags_clear (w : Pte) : Pte.flags (w &&& ~~~PTE_U.setWidth 64) = w.flags &&& ~~~PTE_U := by
  unfold Pte.flags
  refine BitVec.eq_of_getLsbD_eq fun i hi => ?_
  simp [hi, show i < 64 by omega]

theorem dec_zero : dec 0 = .empty := rfl

theorem pgrounddown_eq {a : Nat} (h : a % PGSIZE = 0) : PGROUNDDOWN a = a := by
  exact Nat.div_mul_cancel (Nat.dvd_of_mod_eq_zero h)

theorem dec_pointer {c : Nat} (h : c % PGSIZE = 0) (hLt : c < 2 ^ 64) : dec (PA2PTE c PTE_V) = .node c := by
  have hFlags : (PTE_V &&& PTE_V != 0) = true ∧
    (PTE_V &&& (PTE_R ||| PTE_W ||| PTE_X) != 0) = false := by decide
  refine dec_node.mpr ⟨?_, ?_, PA2PTE_pa h hLt _⟩
  · rw [Pte.valid, PA2PTE_flags]
    exact hFlags.1
  · rw [Pte.rwx, PA2PTE_flags]
    exact hFlags.2

theorem px_eq (level v : Nat) : PX level (v * PGSIZE) = Radix.digit 512 level v := by
  have hSize : PGSIZE = 2 ^ 12 := rfl
  unfold PX Radix.digit
  rw [hSize, pow_add, pow_mul, Nat.mul_comm v, Nat.mul_div_mul_left _ _ (by decide)]
  rfl

/-- `pt` is a page table of level `l`. -/
abbrev PgTree (m : Mem) := Radix.Tree dec 512 m.word

/-- A page table made of the pages `A` that maps the virtual page `v` to the entry `f v`. -/
abbrev PgTable (m : Mem) := PgTree m 2

abbrev Valid (L : Layout) := pool.Valid (PageOk L)

/-! ## walk -/

variable {l pt v : Nat} {A : Multiset Nat} {f : Nat → Option Pte}

theorem wp_walkLevel_alloc {Q : Option Nat → Mem → Prop} (hTree : PgTree m (l + 1) pt A f)
    (hValid : Valid L A m)
    (h : ∀ r m' A', PgTree m' (l + 1) pt A' f → pool.Moves A A' m m' →
      (∀ c, r = some c → dec (m'.word pt (Radix.digit 512 (l + 1) v)) = .node c) → Q r m') :
    wp E (walkLevel pt (l + 1) (v * PGSIZE) true) Q m := by
  have hi := Radix.digit_lt (B := 512) (by decide) (l + 1) v
  rw [walkLevel, wp_bind, wp_entry, px_eq]
  obtain ⟨S, R, rfl, hBlock, hClose⟩ := hTree.focus hi
  rcases hBlock with ⟨hDec, rfl, hNone⟩ | ⟨c, hDec, -⟩
  · rw [if_neg (by simp [dec_empty.mp hDec]), if_pos rfl, wp_bind]
    refine wp_kalloc (wp_pure.mpr ?_) fun next m₁ hMoves hFree => ?_
    · exact h none m _ hTree (.refl _ _) nofun
    · have hOk : PageOk L next := hValid.ok next (Multiset.mem_add.mpr (.inl hFree))
      have hNotHeld : next ∉ {pt} + R := fun hMem =>
        hValid.notMem_free (by rwa [zero_add]) hFree
      have hSame : ∀ x ∈ {pt} + R, m₁.word x = m.word x := fun x hx =>
        word_congr (hMoves.cell_eq (B := {pt} + R) (by simpa using hValid.nodup) hx)
      have hRoot := hSame pt (Multiset.mem_add.mpr (.inl (Multiset.mem_singleton_self pt)))
      have hne : next ≠ pt := fun hEq => hNotHeld (by simp [hEq])
      have hWord := Mem.setWord_word (m := m₁.put next fun _ => 0) (x := pt) (w := PA2PTE next PTE_V) hi
      simp only [memset, wp_bind, wp_store, wp_setEntry, wp_pure]
      refine h (some next) _ ({next} + ({pt} + R)) (hClose _ {next} f ?_ ?_ (fun _ _ _ _ _ => rfl)
        (.inr ⟨next, ?_, (Radix.Tree.empty ?_).congr (fun _ _ => rfl) hNone⟩)) ?_ ?_
      · intro x hx
        have hx' : x ∈ {pt} + R := Multiset.mem_add.mpr (.inr hx)
        have hxn : x ≠ next := fun hEq => hNotHeld (hEq ▸ hx')
        have hxp : x ≠ pt := fun hEq => by
          have hHeld := hValid.held
          rw [zero_add] at hHeld
          exact Multiset.disjoint_left.mp (Multiset.nodup_add.mp hHeld).2.2
            (Multiset.mem_singleton_self pt) (hEq ▸ hx)
        rw [hWord, upd_of_ne hxp, word_put_of_ne _ hxn, hSame x hx']
      · intro j _ hj
        rw [hWord, upd_self, upd_of_ne hj, word_put_of_ne _ hne.symm, hRoot]
      · rw [hWord, upd_self, upd_self, dec_pointer hOk.aligned hOk.lt]
      · intro k _
        rw [hWord, upd_of_ne hne, word_zero, dec_zero]
      · refine (hMoves.add ({pt} + R)).trans ?_
        refine (moves_store (x := next) (by simp)).trans (moves_setWord (x := pt) (by simp))
      · intro c hc
        cases hc
        rw [hWord, upd_self, upd_self, dec_pointer hOk.aligned hOk.lt]
  · obtain ⟨hv, -, hPa⟩ := dec_node.mp hDec
    rw [if_pos hv, wp_pure, hPa]
    exact h (some c) m _ hTree (.refl _ _) fun c' hc => by cases hc; exact hDec

theorem wp_walkLoop_alloc {Q : Option (Nat × Nat) → Mem → Prop} (hTree : PgTree m l pt A f)
    (hValid : Valid L A m)
    (h : ∀ r m' A', PgTree m' l pt A' f → pool.Moves A A' m m' →
      (∀ t k, r = some (t, k) → Radix.At dec 512 m'.word l pt v t ∧ k = v % 512) → Q r m') :
    wp E (walkLoop (v * PGSIZE) true l pt) Q m := by
  induction l generalizing m pt A f Q with
  | zero =>
    rw [walkLoop, wp_pure, px_eq]
    refine h _ m A hTree (.refl _ _) fun t k hr => ?_
    cases hr
    exact ⟨rfl, by rw [Radix.digit, pow_zero, Nat.div_one]⟩
  | succ l ih =>
    rw [walkLoop, wp_bind]
    refine wp_walkLevel_alloc hTree hValid fun r m₁ A₁ hTree₁ hMoves₁ hNode => ?_
    cases r with
    | none => exact wp_pure.mpr (h none m₁ A₁ hTree₁ hMoves₁ fun _ _ => of_none_eq_some)
    | some c =>
      have hDec := hNode c rfl
      obtain ⟨S, R, rfl, hBlock, hClose⟩ := hTree₁.focus (Radix.digit_lt (by decide) (l + 1) v)
      have hValid₁ := hMoves₁.valid hValid
      rcases hBlock with ⟨hEmpty, -⟩ | ⟨c', hDec', hSub⟩
      · rw [hEmpty] at hDec
        cases hDec
      · rw [hDec'] at hDec
        cases hDec
        refine ih hSub hValid₁.left fun r m₂ S' hSub' hMoves₂ hAt => ?_
        -- the rest of the tree is as it was
        have hSame : ∀ x ∈ {pt} + R, m₂.word x = m₁.word x := fun x hx =>
          word_congr (hMoves₂.cell_eq hValid₁.nodup hx)
        have hRoot := hSame pt (Multiset.mem_add.mpr (.inl (Multiset.mem_singleton_self pt)))
        refine h r m₂ (S' + ({pt} + R)) (hClose _ S' f (fun x hx => hSame x ?_)
          (fun j _ _ => by rw [hRoot]) (fun _ _ _ _ _ => rfl) (.inr ⟨c, by rw [hRoot, hDec'], hSub'⟩))
          (hMoves₁.trans (hMoves₂.add _)) fun t k hr => ?_
        · exact Multiset.mem_add.mpr (.inr hx)
        · obtain ⟨hAt, hk⟩ := hAt t k hr
          exact ⟨⟨c, by rw [hRoot, hDec'], hAt⟩, hk⟩

/-- `walk` that does not allocate changes nothing. -/
theorem wp_walkLoop {Q : Option (Nat × Nat) → Mem → Prop} (hTree : PgTree m l pt A f)
    (hNone : f (v % 512 ^ (l + 1)) = none → Q none m)
    (hSome : ∀ t, Radix.At dec 512 m.word l pt v t → Q (some (t, v % 512)) m) :
    wp E (walkLoop (v * PGSIZE) false l pt) Q m := by
  induction l generalizing pt A f Q with
  | zero =>
    rw [walkLoop, wp_pure, px_eq, Radix.digit, pow_zero, Nat.div_one]
    exact hSome pt rfl
  | succ l ih =>
    rw [walkLoop, wp_bind, walkLevel, wp_bind, wp_entry, px_eq]
    obtain ⟨S, R, rfl, hBlock, -⟩ := hTree.focus (Radix.digit_lt (by decide) (l + 1) v)
    rcases hBlock with ⟨hDec, -, hEmpty⟩ | ⟨c, hDec, hSub⟩
    · rw [if_neg (by simp [dec_empty.mp hDec]), if_neg (by simp), wp_pure, wp_pure]
      refine hNone ?_
      rw [Radix.mod_pow_succ]
      exact hEmpty _ (Nat.mod_lt _ (Nat.pow_pos (by decide)))
    · obtain ⟨hv, -, hPa⟩ := dec_node.mp hDec
      rw [if_pos hv, wp_pure, hPa]
      refine ih hSub (fun hf => hNone ?_) fun t hAt => hSome t ⟨c, hDec, hAt⟩
      rwa [Radix.mod_pow_succ]

theorem page_lt_maxva {v : Nat} (h : v < 2 ^ 26) : ¬ MAXVA ≤ v * PGSIZE := by
  unfold MAXVA PGSIZE
  omega

theorem next_page {v : Nat} (h : v < 2 ^ 26) : u64 (v * PGSIZE + PGSIZE) = (v + 1) * PGSIZE := by
  unfold u64 PGSIZE
  omega

/-- The virtual pages below `MAXVA`. -/
theorem mod_top {v : Nat} (h : v < 2 ^ 26) : v % 512 ^ (2 + 1) = v :=
  Nat.mod_eq_of_lt (lt_of_lt_of_le h (by decide))

theorem wp_walk_alloc {Q : Option (Nat × Nat) → Mem → Prop} (hTree : PgTable m pt A f)
    (hValid : Valid L A m) (hv : v < 2 ^ 26)
    (h : ∀ r m' A', PgTable m' pt A' f → pool.Moves A A' m m' →
      (∀ t k, r = some (t, k) → Radix.At dec 512 m'.word 2 pt v t ∧ k = v % 512) → Q r m') :
    wp E (walk pt (v * PGSIZE) true) Q m := by
  rw [walk, wp_bind, wp_when]
  refine ⟨fun hBad => absurd hBad (page_lt_maxva hv), fun _ => wp_walkLoop_alloc hTree hValid h⟩

theorem wp_walk {Q : Option (Nat × Nat) → Mem → Prop} (hTree : PgTable m pt A f) (hv : v < 2 ^ 26)
    (hNone : f v = none → Q none m)
    (hSome : ∀ t, Radix.At dec 512 m.word 2 pt v t → Q (some (t, v % 512)) m) :
    wp E (walk pt (v * PGSIZE) false) Q m := by
  rw [walk, wp_bind, wp_when]
  refine ⟨fun hBad => absurd hBad (page_lt_maxva hv), fun _ => wp_walkLoop hTree (fun hf => hNone ?_) hSome⟩
  rwa [mod_top hv] at hf

/-- The entry that `walk` finds. -/
theorem entry_at (hTree : PgTable m pt A f) (hv : v < 2 ^ 26) {t : Nat}
    (hAt : Radix.At dec 512 m.word 2 pt v t) :
    dec (m.word t (v % 512)) = Radix.Slot.ofOption (f v) := by
  have hDec := hTree.dec_at (by decide) hAt
  rwa [mod_top hv] at hDec

/-- The entry that `walk` finds is changed. -/
theorem PgTable.write (hTree : PgTable m pt A f) (hNodup : A.Nodup) (hv : v < 2 ^ 26) {t : Nat}
    (hAt : Radix.At dec 512 m.word 2 pt v t) {w : Pte} {x : Option Pte}
    (hw : dec w = Radix.Slot.ofOption x) :
    PgTable (m.setWord t (v % 512) w) pt A (upd f v x) := by
  have hSet := Radix.Tree.set (by decide) hTree hNodup hAt hw
  rw [mod_top hv] at hSet
  rwa [PgTable, PgTree, Mem.setWord_word (Nat.mod_lt _ (by decide))]

theorem PgTable.moves (hTree : PgTable m pt A f) {B B' : Multiset Nat}
    (hMoves : pool.Moves B B' m m') (hNodup : (pool.free m + (B + A)).Nodup) : PgTable m' pt A f :=
  hTree.congr (fun _ hx => word_congr (hMoves.cell_eq hNodup hx)) fun _ _ => rfl

/-! ## mappages -/

theorem flags_or_valid (x : BitVec 10) : (x ||| PTE_V) &&& PTE_V ≠ 0 := by
  intro h
  have hBit := congrArg (fun y => y.getLsbD 0) h
  simp at hBit

theorem dec_PA2PTE (pa : Nat) {perm : BitVec 10} (hperm : (perm ||| PTE_V) &&& (PTE_R ||| PTE_W ||| PTE_X) ≠ 0) :
    dec (PA2PTE pa (perm ||| PTE_V)) = .leaf (PA2PTE pa (perm ||| PTE_V)) := by
  rw [dec_leaf]
  refine ⟨?_, ?_, rfl⟩
  · rw [Pte.valid, PA2PTE_flags]
    exact bne_iff_ne.mpr (flags_or_valid perm)
  · rw [Pte.rwx, PA2PTE_flags]
    exact bne_iff_ne.mpr hperm

theorem wp_mappages {Q : Bool → Mem → Prop} {pa : Nat} {perm : BitVec 10}
    (hTree : PgTable m pt A f) (hValid : Valid L A m) (hv : v < 2 ^ 26) (hf : f v = none)
    (hw : dec (PA2PTE pa (perm ||| PTE_V)) = .leaf (PA2PTE pa (perm ||| PTE_V)))
    (hFail : ∀ m' A', PgTable m' pt A' f → pool.Moves A A' m m' → Q false m')
    (hOk : ∀ m' A', PgTable m' pt A' (upd f v (some (PA2PTE pa (perm ||| PTE_V)))) →
      pool.Moves A A' m m' → Q true m') :
    wp E (mappages pt (v * PGSIZE) PGSIZE pa perm) Q m := by
  have hDown : PGROUNDDOWN (v * PGSIZE) = v * PGSIZE := pgrounddown_eq (Nat.mul_mod_left v PGSIZE)
  -- one page: the loop makes one turn
  have hLast : PGROUNDDOWN (u64 (v * PGSIZE + PGSIZE - 1)) = v * PGSIZE := by
    unfold PGROUNDDOWN u64 PGSIZE
    omega
  have hTurns : u64 (v * PGSIZE + 2 ^ 64 - v * PGSIZE) / PGSIZE = 0 := by
    rw [Nat.add_sub_cancel_left]
    rfl
  rw [mappages, wp_bind, wp_when]
  refine ⟨fun hBad => absurd hBad (by decide), fun _ => ?_⟩
  simp only [hDown, hLast, hTurns]
  rw [mapLoop, wp_bind]
  refine wp_walk_alloc hTree hValid hv fun r m₁ A₁ hTree₁ hMoves₁ hAt => ?_
  rcases r with _ | ⟨t, k⟩
  · exact wp_pure.mpr (hFail m₁ A₁ hTree₁ hMoves₁)
  · obtain ⟨hAt₁, rfl⟩ := hAt t k rfl
    have hEntry := entry_at hTree₁ hv hAt₁
    rw [hf] at hEntry
    simp only [wp_bind, wp_entry, wp_when, wp_setEntry, wp_pure]
    refine ⟨fun hBad => ?_, fun _ => ?_⟩
    · rw [dec_empty.mp hEntry] at hBad
      cases hBad
    · refine hOk _ A₁ (hTree₁.write (hMoves₁.valid hValid).held hv hAt₁ hw)
        (hMoves₁.trans (moves_setWord (hTree₁.at_mem (by decide) hAt₁)))

/-! ## uvmunmap -/

/-- The pages that the virtual pages `s` are mapped to. -/
def own (f : Nat → Option Pte) (s : Finset Nat) : Multiset Nat :=
  ∑ v ∈ s, (f v).elim 0 fun w => {w.pa}

theorem own_congr {f f' : Nat → Option Pte} {s : Finset Nat} (h : ∀ v ∈ s, f' v = f v) :
    own f' s = own f s :=
  sum_congr rfl fun v hv => by rw [h v hv]

/-- The map without the `n` pages from `v` on. -/
def cut (f : Nat → Option Pte) (v n : Nat) : Nat → Option Pte :=
  fun u => if v ≤ u ∧ u < v + n then none else f u

/-- What `uvmunmap` frees. -/
def freed (do_free : Bool) (f : Nat → Option Pte) (v n : Nat) : Multiset Nat :=
  if do_free then own f (Ico v (v + n)) else 0

theorem freed_succ {do_free : Bool} {w : Pte} {v n : Nat} (h : f v = some w) :
    freed do_free f v (n + 1) =
      (if do_free then {w.pa} else 0) + freed do_free (upd f v none) (v + 1) n := by
  unfold freed
  cases do_free with
  | false => simp
  | true =>
    have hIco : Ico v (v + (n + 1)) = insert v (Ico (v + 1) (v + 1 + n)) := by
      ext u
      simp only [mem_Ico, mem_insert]
      omega
    simp only [if_true]
    rw [hIco, own, sum_insert (by simp), h]
    congr 1
    refine own_congr fun u hu => ?_
    have hne : u ≠ v := by
      rw [mem_Ico] at hu
      omega
    rw [upd_of_ne hne]

theorem wp_unmapLoop {Q : Unit → Mem → Prop} {do_free : Bool} {n last : Nat}
    (hLast : last = (v + n) * PGSIZE) (hTop : v + n ≤ 2 ^ 26)
    (hTree : PgTable m pt A f) (hValid : Valid L (A + freed do_free f v n) m)
    (hMapped : ∀ u, v ≤ u → u < v + n → (f u).isSome)
    (h : ∀ m', PgTable m' pt A (cut f v n) → pool.Moves (A + freed do_free f v n) A m m' → Q () m') :
    wp E (unmapLoop L pt last do_free n (v * PGSIZE)) Q m := by
  induction n generalizing m v f Q with
  | zero =>
    rw [unmapLoop, wp_pure]
    have hCut : cut f v 0 = f := by
      funext u
      exact if_neg (by omega)
    have hFreed : freed do_free f v 0 = 0 := by
      cases do_free <;> simp [freed, own]
    refine h m (by rwa [hCut]) ?_
    rw [hFreed, add_zero]
    exact .refl A m
  | succ n ih =>
    obtain ⟨w, hw⟩ := Option.isSome_iff_exists.mp (hMapped v le_rfl (by omega))
    have hv : v < 2 ^ 26 := by omega
    rw [freed_succ hw] at hValid h
    generalize hX : (if do_free then {w.pa} else 0 : Multiset Nat) = X at hValid h
    generalize hY : freed do_free (upd f v none) (v + 1) n = Y at hValid h
    rw [unmapLoop, wp_when]
    have hTurn : v * PGSIZE < last := by
      rw [hLast]
      exact Nat.mul_lt_mul_of_pos_right (by omega) (by decide)
    refine ⟨fun _ => ?_, fun hBad => absurd hTurn hBad⟩
    rw [wp_bind]
    refine wp_walk hTree hv (fun hNone => by rw [hw] at hNone; cases hNone) fun t hAt => ?_
    have hEntry := entry_at hTree hv hAt
    rw [hw] at hEntry
    obtain ⟨hVal, hRwx, hEq⟩ := dec_leaf.mp hEntry
    rw [hEq] at hVal hRwx
    simp only [wp_bind, wp_entry, wp_when, hEq, hVal, Bool.not_true, Bool.false_eq_true]
    refine ⟨False.elim, fun _ => ⟨fun hBad => ?_, fun _ => ?_⟩⟩
    · -- a leaf has other flags
      rw [Pte.rwx, hBad] at hRwx
      exact absurd hRwx (by decide)
    · have hNext : ∀ m₁, pool.Moves X 0 m m₁ → wp E (setEntry t (v % 512) 0)
          (fun _ => wp E (unmapLoop L pt last do_free n (u64 (v * PGSIZE + PGSIZE))) Q) m₁ := by
        intro m₁ hMoves₁
        have hSplit : A + (X + Y) = X + A + Y := by ac_rfl
        have hNodup := (hSplit ▸ hValid).left.nodup
        have hTree₁ : PgTable m₁ pt A f := hTree.moves hMoves₁ hNodup
        have hMoves₂ : pool.Moves (A + (X + Y)) (A + Y) m
            (m₁.setWord t (v % 512) 0) := by
          have hAll := (hMoves₁.add (A + Y)).trans
            (moves_setWord (x := t) (i := v % 512) (w := 0) (by
              rw [zero_add]
              exact Multiset.mem_add.mpr (.inl (hTree.at_mem (by decide) hAt))))
          rwa [zero_add, add_left_comm] at hAll
        have hAt₁ : Radix.At dec 512 m₁.word 2 pt v t :=
          hTree.at_congr (by decide) (fun _ hx => word_congr (hMoves₁.cell_eq hNodup hx)) hAt
        have hTree₂ := hTree₁.write (x := none) hValid.left.held hv hAt₁ dec_zero
        rw [wp_setEntry, next_page hv]
        refine ih (by rw [hLast]; congr 1; omega) (by omega) hTree₂ ?_ (fun u hu hu' => ?_) ?_
        · rw [hY]
          exact hMoves₂.valid hValid
        · rw [upd_of_ne (by omega)]
          exact hMapped u (by omega) (by omega)
        · intro m' hTree' hMoves'
          rw [hY] at hMoves'
          refine h m' ?_ (hMoves₂.trans hMoves')
          have hCut : cut (upd f v none) (v + 1) n = cut f v (n + 1) := by
            funext u
            unfold cut
            by_cases hu : u = v
            · rw [hu, if_neg (by omega), if_pos (by omega), upd_self]
            · rw [upd_of_ne hu]
              exact if_congr (by omega) rfl rfl
          rwa [hCut] at hTree'
      cases do_free with
      | false =>
        rw [if_neg (by simp)] at hX
        subst hX
        exact ⟨Bool.noConfusion, fun _ => hNext m (.refl 0 m)⟩
      | true =>
        rw [if_pos rfl] at hX
        subst hX
        refine ⟨fun _ => wp_kfree (hValid.ok_of_mem (by simp)) hNext, fun hBad => absurd rfl hBad⟩

theorem wp_uvmunmap {Q : Unit → Mem → Prop} {do_free : Bool} {n : Nat} (hTop : v + n ≤ 2 ^ 26)
    (hTree : PgTable m pt A f) (hValid : Valid L (A + freed do_free f v n) m)
    (hMapped : ∀ u, v ≤ u → u < v + n → (f u).isSome)
    (h : ∀ m', PgTable m' pt A (cut f v n) → pool.Moves (A + freed do_free f v n) A m m' → Q () m') :
    wp E (uvmunmap L pt (v * PGSIZE) n do_free) Q m := by
  have hLast : u64 (v * PGSIZE + n * PGSIZE) = (v + n) * PGSIZE := by
    unfold u64 PGSIZE
    omega
  rw [uvmunmap, wp_bind, wp_when]
  refine ⟨fun hBad => absurd (Nat.mul_mod_left v PGSIZE) hBad, fun _ => ?_⟩
  exact wp_unmapLoop hLast hTop hTree hValid hMapped h

/-! ## Whole tables -/

theorem wp_uvmcreate {Q : Option Nat → Mem → Prop} (hNone : Q none m)
    (hSome : ∀ pt m', PgTable m' pt {pt} (fun _ => none) → pool.Moves 0 {pt} m m' →
      pt ∈ pool.free m → Q (some pt) m') :
    wp E uvmcreate Q m := by
  rw [uvmcreate, wp_bind]
  refine wp_kalloc (wp_pure.mpr hNone) fun pt m₁ hMoves hFree => ?_
  simp only [memset, wp_bind, wp_store, wp_pure]
  refine hSome pt _ (Radix.Tree.empty fun k _ => ?_) (hMoves.trans (moves_store (by simp))) hFree
  rw [word_zero, dec_zero]

/-- The state of `freewalk`'s loop: the words still to come, and those that are done. -/
structure FreewalkInv (m₀ : Mem) (l pt : Nat) (A₀ : Multiset Nat) (f : Nat → Option Pte)
    (xs : List Nat) (m : Mem) : Prop where
  range : ∀ j ∈ xs, j < 512
  tree  : ∃ A, PgTree m l pt A f ∧ pool.Moves A₀ A m₀ m
  done  : ∀ j < 512, j ∉ xs → dec (m.word pt j) = .empty

theorem FreewalkInv.skip {m₀ : Mem} {A₀ : Multiset Nat} {i : Nat} {xs : List Nat}
    (h : FreewalkInv m₀ l pt A₀ f (i :: xs) m) (hEmpty : dec (m.word pt i) = .empty) :
    FreewalkInv m₀ l pt A₀ f xs m where
  range j hj := h.range j (List.mem_cons_of_mem i hj)
  tree := h.tree
  done j hj hx := by
    by_cases hji : j = i
    · rw [hji, hEmpty]
    · exact h.done j hj fun hMem => (List.mem_cons.mp hMem).elim hji hx

/-- An empty word is passed over. -/
theorem wp_freewalk_empty {w : Pte} {x : M Unit} {Q : Unit → Mem → Prop} (hEmpty : dec w = .empty)
    (h : Q () m) :
    wp E (if w.valid && !w.rwx then x else when (w.valid = true) (throw .freewalkLeaf)) Q m := by
  have hVal := dec_empty.mp hEmpty
  rw [if_neg (by simp [hVal]), wp_when]
  refine ⟨fun hBad => ?_, fun _ => h⟩
  rw [hVal] at hBad
  cases hBad

theorem wp_freewalk {Q : Unit → Mem → Prop} (hTree : PgTree m l pt A f)
    (hNone : ∀ v < 512 ^ (l + 1), f v = none) (hValid : Valid L A m)
    (h : ∀ m', pool.Moves A 0 m m' → Q () m') : wp E (freewalk L (l + 1) pt) Q m := by
  induction l generalizing m pt A f Q with
  | zero =>
    rw [freewalk, wp_bind]
    refine (wp_forM (FreewalkInv m 0 pt A f) (fun i xs m₁ hInv => ?_) _
      ⟨fun j hj => List.mem_range.mp hj, ⟨A, hTree, .refl A m⟩,
        fun j hj hx => absurd (List.mem_range.mpr hj) hx⟩).mono fun _ m₁ hInv => ?_
    · obtain ⟨A₁, hTree₁, -⟩ := hInv.tree
      have hi := hInv.range i List.mem_cons_self
      have hEmpty : dec (m₁.word pt i) = .empty := by
        rw [hTree₁.2 i hi, hNone i (by simpa using hi)]
        rfl
      rw [wp_bind, wp_entry]
      exact wp_freewalk_empty hEmpty (hInv.skip hEmpty)
    · obtain ⟨A₁, hTree₁, hMoves⟩ := hInv.tree
      obtain rfl := hTree₁.1
      exact wp_kfree ((hMoves.valid hValid).ok_of_mem (Multiset.mem_singleton_self pt)) fun m₂ hFree =>
        h m₂ (hMoves.trans hFree)
  | succ l ih =>
    rw [freewalk, wp_bind]
    refine (wp_forM (FreewalkInv m (l + 1) pt A f) (fun i xs m₁ hInv => ?_) _
      ⟨fun j hj => List.mem_range.mp hj, ⟨A, hTree, .refl A m⟩,
        fun j hj hx => absurd (List.mem_range.mpr hj) hx⟩).mono fun _ m₁ hInv => ?_
    · obtain ⟨A₁, hTree₁, hMoves₁⟩ := hInv.tree
      have hi := hInv.range i List.mem_cons_self
      obtain ⟨S, R, rfl, hBlock, hClose⟩ := hTree₁.focus hi
      rw [wp_bind, wp_entry]
      rcases hBlock with ⟨hEmpty, -⟩ | ⟨c, hDec, hSub⟩
      · exact wp_freewalk_empty hEmpty (hInv.skip hEmpty)
      · -- the subtree is freed, then its word is cleared
        obtain ⟨hVal, hRwx, hPa⟩ := dec_node.mp hDec
        have hValid₁ := hMoves₁.valid hValid
        rw [if_pos (by simp [hVal, hRwx]), wp_bind, hPa]
        have hNoneSub : ∀ v < 512 ^ (l + 1), f (i * 512 ^ (l + 1) + v) = none := fun v hv =>
          hNone _ (Radix.block_index_lt hi hv)
        refine ih hSub hNoneSub hValid₁.left fun m₂ hMoves₂ => ?_
        have hSame : ∀ x ∈ {pt} + R, m₂.word x = m₁.word x := fun x hx =>
          word_congr (hMoves₂.cell_eq hValid₁.nodup hx)
        have hRoot := hSame pt (Multiset.mem_add.mpr (.inl (Multiset.mem_singleton_self pt)))
        have hPt : pt ∉ R := Multiset.disjoint_left.mp
          (Multiset.nodup_add.mp hValid₁.right.held).2.2 (Multiset.mem_singleton_self pt)
        have hMoves₃ := hMoves₁.trans ((hMoves₂.add ({pt} + R)).trans
          (moves_setWord (x := pt) (i := i) (w := 0) (by simp)))
        have hWord := Mem.setWord_word (m := m₂) (x := pt) (w := 0) hi
        rw [wp_setEntry]
        refine ⟨fun j hj => hInv.range j (List.mem_cons_of_mem i hj), ⟨_, hClose _ 0 f ?_ ?_
          (fun _ _ _ _ _ => rfl) (.inl ⟨?_, rfl, hNoneSub⟩), hMoves₃⟩, fun j hj hx => ?_⟩
        · intro x hx
          have hne : x ≠ pt := fun hEq => hPt (hEq ▸ hx)
          rw [hWord, upd_of_ne hne, hSame x (Multiset.mem_add.mpr (.inr hx))]
        · intro j _ hj
          rw [hWord, upd_self, upd_of_ne hj, hRoot]
        · rw [hWord, upd_self, upd_self, dec_zero]
        · rw [hWord, upd_self]
          by_cases hji : j = i
          · rw [hji, upd_self, dec_zero]
          · rw [upd_of_ne hji, hRoot]
            exact hInv.done j hj fun hMem => (List.mem_cons.mp hMem).elim hji hx
    · obtain ⟨A₁, hTree₁, hMoves⟩ := hInv.tree
      obtain rfl := hTree₁.eq_singleton fun j hj => hInv.done j hj List.not_mem_nil
      exact wp_kfree ((hMoves.valid hValid).ok_of_mem (Multiset.mem_singleton_self pt)) fun m₂ hFree =>
        h m₂ (hMoves.trans hFree)

/-! ## Single entries -/

/-- The entry `w`, no longer for users. -/
abbrev Pte.clearU (w : Pte) : Pte := w &&& ~~~PTE_U.setWidth 64

theorem wp_uvmclear {Q : Unit → Mem → Prop} {w : Pte} (hTree : PgTable m pt A f) (hNodup : A.Nodup)
    (hv : v < 2 ^ 26) (hw : f v = some w) (hLeaf : dec w.clearU = .leaf w.clearU)
    (h : ∀ m', PgTable m' pt A (upd f v (some w.clearU)) → pool.Moves A A m m' → Q () m') :
    wp E (uvmclear pt (v * PGSIZE)) Q m := by
  rw [uvmclear, wp_bind]
  refine wp_walk hTree hv (fun hNone => by rw [hw] at hNone; cases hNone) fun t hAt => ?_
  have hEntry := entry_at hTree hv hAt
  rw [hw] at hEntry
  obtain ⟨-, -, hEq⟩ := dec_leaf.mp hEntry
  simp only [wp_bind, wp_entry, wp_setEntry, hEq]
  exact h _ (hTree.write hNodup hv hAt hLeaf) (moves_setWord (hTree.at_mem (by decide) hAt))

/-- `walkaddr` of an address in the virtual page `v`. -/
theorem wp_walkaddr {Q : Nat → Mem → Prop} {va : Nat} (hTree : PgTable m pt A f)
    (hva : va = v * PGSIZE) (hBig : 2 ^ 26 ≤ v → Q 0 m)
    (h : v < 2 ^ 26 → Q (((f v).filter Pte.user).elim 0 Pte.pa) m) : wp E (walkaddr pt va) Q m := by
  subst hva
  rw [walkaddr]
  by_cases hv : v < 2 ^ 26
  · rw [if_neg (page_lt_maxva hv), wp_bind]
    refine wp_walk hTree hv (fun hNone => ?_) fun t hAt => ?_
    · have hQ := h hv
      rw [hNone] at hQ
      exact wp_pure.mpr hQ
    · have hEntry := entry_at hTree hv hAt
      have hQ := h hv
      simp only [wp_bind, wp_entry]
      cases hf : f v with
      | none =>
        rw [hf] at hEntry hQ
        rw [if_neg (by simp [dec_empty.mp hEntry])]
        exact wp_pure.mpr hQ
      | some w =>
        rw [hf] at hEntry hQ
        obtain ⟨hVal, -, hEq⟩ := dec_leaf.mp hEntry
        rw [hEq] at hVal ⊢
        rw [hVal, Bool.true_and]
        cases hUser : w.user with
        | true =>
          rw [if_pos rfl]
          refine wp_pure.mpr ?_
          simpa [Option.filter, hUser] using hQ
        | false =>
          rw [if_neg (by simp)]
          refine wp_pure.mpr ?_
          simpa [Option.filter, hUser] using hQ
  · rw [if_pos (by unfold MAXVA PGSIZE; omega), wp_pure]
    exact hBig (by omega)

end Xv6.Vm
