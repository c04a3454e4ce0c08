import Mathlib.Tactic.Ring

/-!
# Byte buffers with little-endian fields

A buffer of `n` bytes is a function on `Fin n`; programs address it with
natural-number offsets. This module gives the two accesses a program makes
(`peek` one byte, `poke` a range of bytes), fixed-width little-endian
fields on top of them (`field` / `setField`), and arrays of such fields.

The lemmas come in pairs: what an access sees of the range that was just
written, and that it sees nothing of a disjoint one. Proofs about a concrete
layout use only these and never unfold a field into its bytes.
-/

namespace ByteBuf

/-- A buffer of `n` bytes. -/
abbrev Buf (n : Nat) := Fin n → UInt8

/-- The byte at offset `i`; reads past the end give zero. -/
def peek {n : Nat} (b : Buf n) (i : Nat) : UInt8 :=
  if h : i < n then b ⟨i, h⟩ else 0

/-- Overwrite the `len` bytes from offset `off` with `src 0, src 1, …`. -/
def poke {n : Nat} (b : Buf n) (off len : Nat) (src : Nat → UInt8) : Buf n :=
  fun i => if off ≤ i.val ∧ i.val < off + len then src (i.val - off) else b i

/-! ## Single bytes -/

variable {n : Nat}

theorem peek_lt {b : Buf n} {i : Nat} (h : i < n) : peek b i = b ⟨i, h⟩ := by
  simp [peek, h]

theorem peek_ge {b : Buf n} {i : Nat} (h : n ≤ i) : peek b i = 0 := by
  simp [peek, Nat.not_lt.mpr h]

theorem buf_ext {a b : Buf n} (h : ∀ i, i < n → peek a i = peek b i) : a = b := by
  funext i
  have := h i.val i.isLt
  rwa [peek_lt i.isLt, peek_lt i.isLt] at this

theorem peek_poke (b : Buf n) (off len : Nat) (src : Nat → UInt8) (i : Nat) :
    peek (poke b off len src) i =
      if off ≤ i ∧ i < off + len ∧ i < n then src (i - off) else peek b i := by
  by_cases hi : i < n
  · rw [peek_lt hi, peek_lt hi]
    simp [poke, hi]
  · rw [peek_ge (Nat.not_lt.mp hi), peek_ge (Nat.not_lt.mp hi), if_neg (by omega)]

theorem peek_poke_inside {b : Buf n} {off len i : Nat} {src : Nat → UInt8}
    (h : i < len) (hn : off + len ≤ n) :
    peek (poke b off len src) (off + i) = src i := by
  rw [peek_poke, if_pos (by omega), Nat.add_sub_cancel_left]

theorem peek_poke_outside {b : Buf n} {off len i : Nat} {src : Nat → UInt8}
    (h : i < off ∨ off + len ≤ i) :
    peek (poke b off len src) i = peek b i := by
  rw [peek_poke, if_neg (by omega)]

theorem poke_zero (b : Buf n) (off : Nat) (src : Nat → UInt8) : poke b off 0 src = b :=
  funext fun _ => if_neg (by omega)

/-! ## Little-endian values -/

/-- The value of the `k` bytes `f 0, …, f (k - 1)`, least significant first. -/
def le : Nat → (Nat → UInt8) → Nat
  | 0, _ => 0
  | k + 1, f => (f 0).toNat + 256 * le k (fun i => f (i + 1))

/-- Byte `i` of the little-endian representation of `x`. -/
def leByte (x i : Nat) : UInt8 := UInt8.ofNat (x / 256 ^ i)

theorem le_congr {k : Nat} {f g : Nat → UInt8} (h : ∀ i, i < k → f i = g i) :
    le k f = le k g := by
  induction k generalizing f g with
  | zero => rfl
  | succ k ih =>
    rw [le, le, h 0 (by omega), ih (fun i hi => h (i + 1) (by omega))]

theorem le_lt (k : Nat) (f : Nat → UInt8) : le k f < 256 ^ k := by
  induction k generalizing f with
  | zero => simp [le]
  | succ k ih =>
    have h0 : (f 0).toNat < 256 := (f 0).toNat_lt
    have hk := ih (fun i => f (i + 1))
    rw [le, pow_succ]
    omega

theorem le_leByte (k x : Nat) : le k (leByte x) = x % 256 ^ k := by
  induction k generalizing x with
  | zero => simp [le, Nat.mod_one]
  | succ k ih =>
    -- dropping the lowest byte of `x` is dividing it by 256
    have hShift : (fun i => leByte x (i + 1)) = leByte (x / 256) := by
      funext i
      rw [leByte, leByte, Nat.div_div_eq_div_mul, pow_succ']
    have h0 : (leByte x 0).toNat = x % 256 := by
      simp [leByte]
    rw [le, hShift, ih, h0, pow_succ', Nat.mod_mul]

theorem le_zero (k : Nat) : le k (fun _ => 0) = 0 := by
  induction k with
  | zero => rfl
  | succ k ih => simp [le, ih]

/-! ## Fields -/

/-- The `k`-byte little-endian field at offset `off`. -/
def field (b : Buf n) (off k : Nat) : Nat := le k (fun i => peek b (off + i))

/-- Store `x` in the `k`-byte little-endian field at offset `off`. -/
def setField (b : Buf n) (off k x : Nat) : Buf n := poke b off k (leByte x)

theorem field_setField_same {b : Buf n} {off k x : Nat} (h : off + k ≤ n) :
    field (setField b off k x) off k = x % 256 ^ k := by
  rw [field, ← le_leByte k x]
  exact le_congr fun i hi => peek_poke_inside hi h

theorem field_poke_disjoint {b : Buf n} {off k off' len : Nat} {src : Nat → UInt8}
    (h : off + k ≤ off' ∨ off' + len ≤ off) :
    field (poke b off' len src) off k = field b off k :=
  le_congr fun i hi => peek_poke_outside (by omega)

theorem field_setField_disjoint {b : Buf n} {off k off' k' x : Nat}
    (h : off + k ≤ off' ∨ off' + k' ≤ off) :
    field (setField b off' k' x) off k = field b off k :=
  field_poke_disjoint h

/-! ## Arrays of fields -/

/-- Store the values `xs` in consecutive `k`-byte fields from offset `off`. -/
def setFields (b : Buf n) (off k : Nat) : List Nat → Buf n
  | [] => b
  | x :: xs => setFields (setField b off k x) (off + k) k xs

/-- The `len` consecutive `k`-byte fields from offset `off`. -/
def fields (b : Buf n) (off k len : Nat) : List Nat :=
  (List.range len).map fun i => field b (off + k * i) k

theorem field_setFields_below {b : Buf n} {off k w o : Nat} {xs : List Nat}
    (h : o + w ≤ off) : field (setFields b off k xs) o w = field b o w := by
  induction xs generalizing b off with
  | nil => rfl
  | cons x xs ih =>
    rw [setFields, ih (by omega), field_setField_disjoint (Or.inl h)]

theorem field_setFields {b : Buf n} {off k : Nat} {xs : List Nat} {i : Nat}
    (hi : i < xs.length) (hn : off + k * xs.length ≤ n) :
    field (setFields b off k xs) (off + k * i) k = xs[i] % 256 ^ k := by
  induction xs generalizing b off i with
  | nil => simp at hi
  | cons x xs ih =>
    rw [List.length_cons, Nat.mul_succ] at hn
    cases i with
    | zero =>
      rw [setFields, Nat.mul_zero, Nat.add_zero, field_setFields_below (Nat.le_refl _),
        field_setField_same (by omega)]
      rfl
    | succ i =>
      have hi' : i < xs.length := by simpa using hi
      have hOff : off + k * (i + 1) = off + k + k * i := by ring
      rw [setFields, hOff, ih hi' (by omega)]
      rfl

/-- An array of values that fit their fields is read back as it was stored. -/
theorem fields_setFields {b : Buf n} {off k : Nat} {xs : List Nat}
    (hn : off + k * xs.length ≤ n) (hx : ∀ x ∈ xs, x < 256 ^ k) :
    fields (setFields b off k xs) off k xs.length = xs := by
  apply List.ext_getElem
  · simp [fields]
  · intro i h₁ h₂
    simp only [fields, List.getElem_map, List.getElem_range]
    rw [field_setFields h₂ hn, Nat.mod_eq_of_lt (hx _ (List.getElem_mem h₂))]

end ByteBuf
