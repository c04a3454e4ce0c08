import Xv6.Sys.Model
import Xv6.Vm.User

/-!
# xv6 — the stack of a new program

`exec` copies the argument strings to the top of the last page, one below the other, and then the array of pointers to
them. Where they are, and that nothing else is written.
-/

namespace Xv6.Sys

open Hoare ByteBuf
open Vm (Layout Mem Pte Image Touched umem userPte PGSIZE u64)

variable {a i top : Nat} {argv : List (List UInt8)} {ustack : List Nat}

variable {E : Vm.Panic → Prop} {L : Layout} {m m' : Mem} {pt : Nat} {A B : Multiset Nat} {f f' : Nat → Option Pte}

/-- The bytes `l` are at the user address `a`. -/
def BytesAt (m : Mem) (f : Nat → Option Pte) (a : Nat) (l : List UInt8) : Prop :=
  ∀ k < l.length, umem m f (a + k) = l[k]?

/-- Room for `n` bytes at an aligned address below `sp`. In `Int` nothing wraps. -/
def below (sp : Int) (n : Nat) : Int := sp - n - (sp - n) % 16

/-- The strings `argv` at the addresses `ustack`, each of them right below the one before, the first below `top`. -/
def Copies (m : Mem) (f : Nat → Option Pte) : (top : Nat) → (argv : List (List UInt8)) → (ustack : List Nat) → Prop
  | _, [], [] => True
  | top, s :: argv, a :: ustack =>
    (a : Int) = below top (s.length + 1) ∧ BytesAt m f a (s ++ [0]) ∧ Copies m f a argv ustack
  | _, _, _ => False

/-- Users can access all addresses from `lo` to `hi`. -/
def Accessible (f : Nat → Option Pte) (lo hi : Nat) : Prop := ∀ a, lo ≤ a → a < hi → (userPte f (a / PGSIZE)).isSome

/-- `copyout` to addresses that users can access. -/
theorem wp_copyout_accessible {Q : Bool → Mem → Prop} {l : List UInt8} (hImage : Image L m pt A B f)
    (hAcc : Accessible f a (a + l.length))
    (h : ∀ m', BytesAt m' f a l → Touched f a (a + l.length) m m' → Q true m') : wp E (Vm.copyout pt a l) Q m := by
  refine Vm.wp_copyout hImage fun k m' hOut => ?_
  have hLe := hOut.le
  have hAll : k = l.length := by
    by_contra hNot
    have hNone := hOut.stop (by omega)
    have hSome := hAcc (a + k) (by omega) (by omega)
    rw [hNone] at hSome
    cases hSome
  have hStored := hOut.stored
  rw [hAll, List.take_length] at hStored
  rw [decide_eq_true hAll]
  refine h m' (fun j hj => ?_) hStored.touched
  obtain ⟨w, hw⟩ := Option.isSome_iff_exists.mp (hAcc (a + j) (by omega) (by omega))
  rw [hStored.bytes, if_pos (by omega), umem, hw, Nat.add_sub_cancel_left, List.getElem?_eq_getElem hj,
    List.getD_eq_getElem _ _ hj]
  rfl

theorem BytesAt.congr {l : List UInt8} (h : BytesAt m f a l)
    (hSame : ∀ b, a ≤ b → b < a + l.length → umem m' f' b = umem m f b) : BytesAt m' f' a l := fun k hk => by
  rw [hSame _ (by omega) (by omega), h k hk]

theorem Copies.congr {lo : Nat} (h : Copies m f top argv ustack)
    (hSame : ∀ b, lo ≤ b → umem m' f' b = umem m f b) (hLow : ∀ a ∈ ustack, lo ≤ a) : Copies m' f' top argv ustack := by
  induction argv generalizing top ustack with
  | nil =>
    cases ustack with
    | nil => trivial
    | cons => exact h.elim
  | cons s argv ih =>
    cases ustack with
    | nil => exact h.elim
    | cons a ustack =>
      obtain ⟨hRoom, hBytes, hRest⟩ := h
      have ha := hLow a List.mem_cons_self
      exact ⟨hRoom, hBytes.congr fun b hb _ => hSame b (by omega),
        ih hRest fun b hb => hLow b (List.mem_cons_of_mem a hb)⟩

theorem below_add_le {sp a : Int} {n : Nat} (h : a = below sp n) : a + n ≤ sp := by
  rw [below] at h
  omega

/-- Where each of the strings is. -/
theorem Copies.get {t : List UInt8}
    (h : Copies m f top argv ustack) (ha : ustack[i]? = some a) (ht : argv[i]? = some t) :
    (∃ b : Nat, (top :: ustack)[i]? = some b ∧ (a : Int) = below b (t.length + 1)) ∧ BytesAt m f a (t ++ [0]) := by
  induction argv generalizing top ustack i with
  | nil => cases ht
  | cons s argv ih =>
    cases ustack with
    | nil => exact h.elim
    | cons x ustack =>
      obtain ⟨hAddr, hBytes, hRest⟩ := h
      cases i with
      | zero =>
        cases ha
        cases ht
        exact ⟨⟨top, rfl, hAddr⟩, hBytes⟩
      | succ i =>
        have hNext := ih (i := i) hRest ha ht
        exact hNext

/-- All of them are below the top. -/
theorem Copies.le {t : List UInt8}
    (h : Copies m f top argv ustack) (ha : ustack[i]? = some a) (ht : argv[i]? = some t) : a + (t.length + 1) ≤ top := by
  induction argv generalizing top ustack i with
  | nil => cases ht
  | cons s argv ih =>
    cases ustack with
    | nil => exact h.elim
    | cons x ustack =>
      obtain ⟨hAddr, -, hRest⟩ := h
      have hx := below_add_le hAddr
      cases i with
      | zero =>
        cases ha
        cases ht
        omega
      | succ i =>
        have hLe := ih hRest ha ht
        omega

/-- Each of them is below those before it. -/
theorem Copies.apart {j b : Nat} {t : List UInt8}
    (h : Copies m f top argv ustack) (hij : i < j) (ha : ustack[i]? = some a) (hb : ustack[j]? = some b)
    (ht : argv[j]? = some t) : b + (t.length + 1) ≤ a := by
  induction argv generalizing top ustack i j with
  | nil => cases ht
  | cons s argv ih =>
    cases ustack with
    | nil => exact h.elim
    | cons x ustack =>
      obtain ⟨-, -, hRest⟩ := h
      obtain ⟨j, rfl⟩ := Nat.exists_eq_succ_of_ne_zero (Nat.ne_zero_of_lt hij)
      cases i with
      | zero =>
        cases ha
        exact hRest.le hb ht
      | succ i => exact ih hRest (Nat.lt_of_succ_lt_succ hij) ha hb ht

/-- The strings `argv` are on the stack from `sp` to `top`, at the addresses `ustack`. -/
structure Pushed (m' : Mem) (f : Nat → Option Pte) (stackbase top : Nat) (argv : List (List UInt8)) (sp : Nat)
    (ustack : List Nat) : Prop where
  low     : stackbase ≤ sp
  high    : sp ≤ top
  aligned : top % 16 = 0 → sp % 16 = 0
  copies  : Copies m' f top argv ustack
  length  : ustack.length = argv.length
  lowest  : ∀ a ∈ ustack, sp ≤ a
  last    : sp = ustack.getLastD top

theorem wp_pushArgs {stackbase sp : Nat}
    {Q : Option (Nat × List Nat) → Mem → Prop} (hImage : Image L m pt A B f) (hBase : PGSIZE ≤ stackbase)
    (hLow : stackbase ≤ sp) (hTop : sp < 2 ^ 64) (hAcc : Accessible f stackbase sp)
    (hLen : ∀ s ∈ argv, s.length < PGSIZE) (hFail : ∀ m', Touched f stackbase sp m m' → Q none m')
    (hOk : ∀ sp' as m', Pushed m' f stackbase sp argv sp' as → (argv ≠ [] → ustack.length + argv.length ≤ MAXARG) →
      Touched f sp' sp m m' → Q (some (sp', ustack ++ as)) m') :
    wp E (pushArgs pt stackbase argv sp ustack) Q m := by
  induction argv generalizing m sp ustack with
  | nil =>
    have hQ := hOk sp [] m ⟨hLow, le_rfl, id, trivial, rfl, fun _ h => absurd h List.not_mem_nil, rfl⟩ (fun h => absurd rfl h)
      (.refl f sp sp m)
    rw [List.append_nil] at hQ
    exact wp_pure.mpr hQ
  | cons s argv ih =>
    have hs := hLen s List.mem_cons_self
    rw [pushArgs, wp_ite]
    refine ⟨fun _ => wp_pure.mpr (hFail m (.refl f _ _ m)), fun hMax => ?_⟩
    -- nothing wraps: the string is shorter than a page
    have hSub : u64 (sp + 2 ^ 64 - (s.length + 1)) = sp - (s.length + 1) := by
      unfold u64
      omega
    dsimp only
    rw [hSub]
    generalize hSp : sp - (s.length + 1) - (sp - (s.length + 1)) % 16 = sp₂
    rw [wp_ite]
    refine ⟨fun _ => wp_pure.mpr (hFail m (.refl f _ _ m)), fun hFit => ?_⟩
    have hAlign : sp₂ % 16 = 0 := by omega
    have hLen₂ : (s ++ [0]).length = s.length + 1 := by rw [List.length_append, List.length_singleton]
    have hRoom : sp₂ + (s ++ [0]).length ≤ sp := by omega
    rw [wp_bind]
    refine wp_copyout_accessible hImage (fun a ha ha' => hAcc a (by omega) (by omega)) fun m₁ hBytes hTouched₁ => ?_
    rw [if_pos rfl]
    refine ih (hTouched₁.image hImage) (by omega) (by omega) (fun a ha ha' => hAcc a ha (by omega))
      (fun s' hs' => hLen s' (List.mem_cons_of_mem s hs')) (fun m' hTouched => ?_) fun sp' as m' hPushed hArgs hTouched => ?_
    · exact hFail m' ((hTouched₁.mono (by omega) hRoom).trans (hTouched.mono le_rfl (by omega)))
    · have hHigh := hPushed.high
      have hAddr : (sp₂ : Int) = below sp (s.length + 1) := by
        unfold below
        omega
      have hQ := hOk sp' (sp₂ :: as) m' ⟨hPushed.low, by omega, fun _ => hPushed.aligned hAlign,
        ⟨hAddr, hBytes.congr fun b hb _ => hTouched.bytes b (.inr hb), hPushed.copies⟩, congrArg (· + 1) hPushed.length, ?_,
        hPushed.last.trans List.getLastD_cons.symm⟩ ?_ ?_
      · rwa [List.append_assoc]
      · intro a ha
        rcases List.mem_cons.mp ha with rfl | ha
        · exact hHigh
        · exact hPushed.lowest a ha
      · intro _
        by_cases hNil : argv = []
        · rw [hNil, List.length_singleton]
          omega
        · have hMore := hArgs hNil
          rw [List.length_append, List.length_singleton] at hMore
          rw [List.length_cons]
          omega
      · exact (hTouched₁.mono hHigh hRoom).trans (hTouched.mono le_rfl (by omega))

theorem bytesAt_append {l l' : List UInt8} :
    BytesAt m f a (l ++ l') ↔ BytesAt m f a l ∧ BytesAt m f (a + l.length) l' := by
  constructor
  · refine fun h => ⟨fun k hk => ?_, fun k hk => ?_⟩
    · rw [h k (by rw [List.length_append]; omega), List.getElem?_append_left hk]
    · rw [Nat.add_assoc, h (l.length + k) (by rw [List.length_append]; omega), List.getElem?_append_right (by omega),
        Nat.add_sub_cancel_left]
  · rintro ⟨h, h'⟩ k hk
    rw [List.length_append] at hk
    by_cases hFirst : k < l.length
    · rw [h k hFirst, List.getElem?_append_left hFirst]
    · have hRest := h' (k - l.length) (by omega)
      rw [show a + l.length + (k - l.length) = a + k by omega] at hRest
      rw [hRest, List.getElem?_append_right (by omega)]

@[simp] theorem length_leBytes (k x : Nat) : (leBytes k x).length = k := by
  rw [leBytes, List.length_map, List.length_range]

theorem length_words (xs : List Nat) : (xs.flatMap (leBytes 8)).length = 8 * xs.length := by
  induction xs with
  | nil => rfl
  | cons x xs ih =>
    rw [List.flatMap_cons, List.length_append, ih, length_leBytes, List.length_cons]
    omega

/-- The words of an array are one after the other. -/
theorem bytesAt_words {xs : List Nat} (h : BytesAt m f a (xs.flatMap (leBytes 8))) {x : Nat}
    (hx : xs[i]? = some x) : BytesAt m f (a + 8 * i) (leBytes 8 x) := by
  induction xs generalizing a i with
  | nil => cases hx
  | cons y xs ih =>
    rw [List.flatMap_cons, bytesAt_append, length_leBytes] at h
    cases i with
    | zero =>
      cases hx
      exact h.1
    | succ i =>
      rw [show a + 8 * (i + 1) = a + 8 + 8 * i by omega]
      exact ih h.2 hx

/-- The arguments of a program of size `sz` are on its stack: their copies at the addresses `ustack`, and at `sp` the array of
these addresses, with a null pointer at its end. -/
structure Stack (m : Mem) (f : Nat → Option Pte) (sz : Nat) (argv : List (List UInt8)) (sp : Nat) (ustack : List Nat) :
    Prop where
  low      : sz - PGSIZE ≤ sp
  high     : sp + 8 * (argv.length + 1) ≤ sz
  aligned  : sp % 16 = 0
  length   : ustack.length = argv.length
  copies   : Copies m f sz argv ustack
  pointers : ∀ i x, (ustack ++ [0])[i]? = some x → BytesAt m f (sp + 8 * i) (leBytes 8 x)
  below    : ∀ a ∈ ustack, sp + 8 * (argv.length + 1) ≤ a
  addr     : (sp : Int) = Sys.below (ustack.getLastD sz : Nat) (8 * (argv.length + 1))

theorem Stack.congr {sz sp : Nat} (h : Stack m f sz argv sp ustack)
    (hSame : ∀ b, umem m' f' b = umem m f b) : Stack m' f' sz argv sp ustack where
  low := h.low
  high := h.high
  aligned := h.aligned
  length := h.length
  copies := h.copies.congr (fun b _ => hSame b) h.below
  pointers i x hx := (h.pointers i x hx).congr fun b _ _ => hSame b
  below := h.below
  addr := h.addr

theorem wp_pushStack {sz : Nat} {Q : Option Nat → Mem → Prop} (hImage : Image L m pt A B f)
    (hBase : 2 * PGSIZE ≤ sz) (hTop : sz < 2 ^ 64) (hAlign : sz % 16 = 0) (hAcc : Accessible f (sz - PGSIZE) sz)
    (hLen : ∀ s ∈ argv, s.length < PGSIZE) (hFail : ∀ m', Touched f (sz - PGSIZE) sz m m' → Q none m')
    (hOk : ∀ sp ustack m', Stack m' f sz argv sp ustack → Touched f (sz - PGSIZE) sz m m' → Q (some sp) m') :
    wp E (pushStack pt sz argv) Q m := by
  rw [pushStack]
  dsimp only
  rw [wp_bind]
  refine wp_pushArgs hImage (by omega) (Nat.sub_le ..) hTop hAcc hLen (fun m' hTouched => wp_pure.mpr (hFail m' hTouched))
    fun sp ustack m₁ hPushed hArgs hTouched₁ => ?_
  obtain ⟨hLow, hHigh, hAligned, hCopies, hLength, hLowest, hLast⟩ := hPushed
  have hAll : Touched f (sz - PGSIZE) sz m m₁ := hTouched₁.mono hLow le_rfl
  have hCount : (ustack ++ [0]).length = argv.length + 1 := by
    rw [List.length_append, hLength, List.length_singleton]
  have hMax : argv.length ≤ MAXARG := by
    by_cases hNil : argv = []
    · rw [hNil]
      exact Nat.zero_le _
    · have hSum := hArgs hNil
      rwa [List.length_nil, Nat.zero_add] at hSum
  have hSub : u64 (sp + 2 ^ 64 - (argv.length + 1) * 8) = sp - (argv.length + 1) * 8 := by
    unfold u64 MAXARG PGSIZE at *
    omega
  simp only [List.nil_append, hCount, hSub]
  generalize hSp : sp - (argv.length + 1) * 8 - (sp - (argv.length + 1) * 8) % 16 = sp₂
  have hRoom : sp₂ + 8 * (argv.length + 1) ≤ sp := by
    unfold MAXARG PGSIZE at *
    omega
  rw [wp_ite]
  refine ⟨fun _ => wp_pure.mpr (hFail m₁ hAll), fun hFit => ?_⟩
  have hWords := length_words (ustack ++ [0])
  rw [hCount] at hWords
  rw [wp_bind]
  refine wp_copyout_accessible (hTouched₁.image hImage) (fun a ha ha' => hAcc a (by omega) (by omega))
    fun m₂ hBytes hTouched₂ => ?_
  rw [hWords] at hTouched₂
  rw [if_pos rfl, wp_pure]
  refine hOk sp₂ ustack m₂ ⟨by omega, by omega, by omega, hLength, ?_, fun i x hx => bytesAt_words hBytes hx,
    fun a ha => ?_, ?_⟩ (hAll.trans (hTouched₂.mono (by omega) (by omega)))
  · exact hCopies.congr (fun b hb => hTouched₂.bytes b (.inr (by omega))) hLowest
  · have := hLowest a ha
    omega
  · rw [← hLast, below]
    omega

end Xv6.Sys
