import Xv6.Lib.Upd
import Mathlib.Data.List.Basic
import Mathlib.Data.Int.ModEq

/-!
# Ring buffers with free-running counters

A ring buffer of `cap` cells addressed by two counters of `k` bits that are only ever incremented:
`nread` cells have been taken and `nwrite` put, both modulo `2 ^ k`. The cell of a counter value is
the value modulo `cap`, which is consistent across the wrap of the counters as long as `cap` divides
`2 ^ k`. What the buffer holds is the list of cells from `nread` to `nwrite`.

The tests programs make on the counters (`isEmpty_iff`, `isFull_iff`) and the two operations
(`contents_push`, `contents_pop`) are stated in terms of that list.
-/

structure RingBuf (k : Nat) (α : Type) where
  data   : Nat → α
  nread  : BitVec k
  nwrite : BitVec k

namespace RingBuf

variable {k cap : Nat} {α : Type}

/-- Number of cells in use. -/
def len (q : RingBuf k α) : Nat := (q.nwrite - q.nread).toNat

/-- The cells in use, oldest first. -/
def contents (cap : Nat) (q : RingBuf k α) : List α :=
  (List.range q.len).map fun j => q.data ((q.nread.toNat + j) % cap)

def push (cap : Nat) (q : RingBuf k α) (a : α) : RingBuf k α :=
  { q with data := upd q.data (q.nwrite.toNat % cap) a, nwrite := q.nwrite + 1 }

/-- The oldest cell. -/
def head (cap : Nat) (q : RingBuf k α) : α := q.data (q.nread.toNat % cap)

def pop (q : RingBuf k α) : RingBuf k α := { q with nread := q.nread + 1 }

/-- The newest cell. -/
def last (cap : Nat) (q : RingBuf k α) : α := q.data ((q.nwrite - 1).toNat % cap)

/-- Take the newest cell back. -/
def back (q : RingBuf k α) : RingBuf k α := { q with nwrite := q.nwrite - 1 }

@[simp] theorem length_contents (q : RingBuf k α) : (q.contents cap).length = q.len := by
  simp [contents]

theorem isEmpty_iff (q : RingBuf k α) : q.nread = q.nwrite ↔ q.len = 0 := by
  unfold len
  constructor
  · intro h
    rw [h, BitVec.sub_self]
    rfl
  · intro h
    have hZero : q.nwrite - q.nread = 0#k := BitVec.eq_of_toNat_eq (by rw [h]; rfl)
    rw [← BitVec.sub_add_cancel q.nwrite q.nread, hZero, BitVec.zero_add]

theorem isFull_iff (q : RingBuf k α) (hCap : cap < 2 ^ k) :
    q.nwrite = q.nread + BitVec.ofNat k cap ↔ q.len = cap := by
  unfold len
  constructor
  · intro h
    rw [h, BitVec.add_comm, BitVec.add_sub_cancel, BitVec.toNat_ofNat, Nat.mod_eq_of_lt hCap]
  · intro h
    have hSub : q.nwrite - q.nread = BitVec.ofNat k cap := by
      rw [← h, BitVec.ofNat_toNat, BitVec.setWidth_eq]
    rw [← hSub, BitVec.add_comm, BitVec.sub_add_cancel]

/-- The cell of the next write, seen from `nread`. -/
theorem nwrite_mod (q : RingBuf k α) (hDvd : cap ∣ 2 ^ k) :
    q.nwrite.toNat % cap = (q.nread.toNat + q.len) % cap := by
  have hSum : q.nwrite = q.nread + (q.nwrite - q.nread) := by
    rw [BitVec.add_comm, BitVec.sub_add_cancel]
  have hNat : q.nwrite.toNat = (q.nread.toNat + q.len) % 2 ^ k := by
    conv_lhs => rw [hSum]
    rw [BitVec.toNat_add, len]
  rw [hNat, Nat.mod_mod_of_dvd _ hDvd]

theorem toNat_one (h : 1 < 2 ^ k) : (1 : BitVec k).toNat = 1 := by
  show (BitVec.ofNat k 1).toNat = 1
  rw [BitVec.toNat_ofNat, Nat.mod_eq_of_lt h]

theorem len_push (q : RingBuf k α) (a : α) (hLen : q.len + 1 < 2 ^ k) :
    (q.push cap a).len = q.len + 1 := by
  have hSub : q.nwrite + 1 - q.nread = (q.nwrite - q.nread) + 1 := by
    rw [BitVec.sub_eq_add_neg, BitVec.sub_eq_add_neg, BitVec.add_assoc, BitVec.add_comm 1,
      ← BitVec.add_assoc]
  unfold push
  show (q.nwrite + 1 - q.nread).toNat = (q.nwrite - q.nread).toNat + 1
  have hOne := toNat_one (k := k) (by omega)
  rw [hSub, BitVec.toNat_add, hOne, Nat.mod_eq_of_lt]
  exact hLen

theorem len_pop (q : RingBuf k α) (hLen : 0 < q.len) : q.pop.len = q.len - 1 := by
  have hLt : q.len < 2 ^ k := (q.nwrite - q.nread).isLt
  have hOne := toNat_one (k := k) (by omega)
  have hSub : q.nwrite - (q.nread + 1) = (q.nwrite - q.nread) - 1 := by
    rw [BitVec.sub_eq_add_neg, BitVec.sub_eq_add_neg, BitVec.sub_eq_add_neg, BitVec.neg_add,
      BitVec.sub_eq_add_neg, BitVec.add_assoc]
  show (q.nwrite - (q.nread + 1)).toNat = (q.nwrite - q.nread).toNat - 1
  rw [hSub, BitVec.toNat_sub_of_le, hOne]
  rw [BitVec.le_def, hOne]
  exact hLen

/-- A write to a buffer that is not full appends. -/
theorem contents_push (q : RingBuf k α) (a : α) (hDvd : cap ∣ 2 ^ k) (hLen : q.len < cap)
    (hCap : cap < 2 ^ k) : (q.push cap a).contents cap = q.contents cap ++ [a] := by
  have hCell := q.nwrite_mod hDvd
  unfold contents
  rw [q.len_push a (by omega), List.range_succ, List.map_append]
  congr 1
  · refine List.map_congr_left fun j hj => ?_
    rw [List.mem_range] at hj
    -- the cells in use are not the one that is written
    refine upd_of_ne fun hEq => ?_
    rw [hCell] at hEq
    have hMod : j % cap = q.len % cap := Nat.ModEq.add_left_cancel' q.nread.toNat hEq
    rw [Nat.mod_eq_of_lt (by omega), Nat.mod_eq_of_lt hLen] at hMod
    omega
  · show [upd q.data (q.nwrite.toNat % cap) a ((q.nread.toNat + q.len) % cap)] = [a]
    rw [← hCell, upd_self]

/-- A read from a buffer that is not empty takes the oldest cell. -/
theorem contents_pop (q : RingBuf k α) (hDvd : cap ∣ 2 ^ k) (hLen : 0 < q.len) :
    q.contents cap = q.head cap :: q.pop.contents cap := by
  have hLt : q.len < 2 ^ k := (q.nwrite - q.nread).isLt
  have hOne := toNat_one (k := k) (by omega)
  unfold contents
  rw [q.len_pop hLen]
  obtain ⟨m, hm⟩ : ∃ m, q.len = m + 1 := ⟨q.len - 1, by omega⟩
  rw [hm, List.range_succ_eq_map, List.map_cons, List.map_map, Nat.add_sub_cancel]
  congr 1
  refine List.map_congr_left fun j _ => ?_
  show q.data ((q.nread.toNat + (j + 1)) % cap) = q.data (((q.nread + 1).toNat + j) % cap)
  rw [BitVec.toNat_add, hOne, ← Nat.mod_add_mod ((_ + 1) % 2 ^ k), Nat.mod_mod_of_dvd _ hDvd,
    Nat.mod_add_mod]
  congr 2
  omega

theorem len_back (q : RingBuf k α) (hLen : 0 < q.len) : q.back.len = q.len - 1 := by
  have hLt : q.len < 2 ^ k := (q.nwrite - q.nread).isLt
  have hOne := toNat_one (k := k) (by omega)
  have hSub : q.nwrite - 1 - q.nread = (q.nwrite - q.nread) - 1 := by
    rw [BitVec.sub_eq_add_neg, BitVec.sub_eq_add_neg, BitVec.sub_eq_add_neg, BitVec.sub_eq_add_neg,
      BitVec.add_assoc, BitVec.add_comm (-1), BitVec.add_assoc]
  show (q.nwrite - 1 - q.nread).toNat = (q.nwrite - q.nread).toNat - 1
  rw [hSub, BitVec.toNat_sub_of_le, hOne]
  rw [BitVec.le_def, hOne]
  exact hLen

/-- The newest cell is the last one. -/
theorem contents_back (q : RingBuf k α) (hDvd : cap ∣ 2 ^ k) (hLen : 0 < q.len) :
    q.contents cap = q.back.contents cap ++ [q.last cap] := by
  have hCell := q.back.nwrite_mod hDvd
  have hBack := q.len_back hLen
  unfold contents
  obtain ⟨m, hm⟩ : ∃ m, q.len = m + 1 := ⟨q.len - 1, by omega⟩
  rw [hBack, hm, Nat.add_sub_cancel, List.range_succ, List.map_append]
  congr 1
  show [q.data ((q.nread.toNat + m) % cap)] = [q.data (q.back.nwrite.toNat % cap)]
  rw [hCell, hBack, hm]
  rfl

end RingBuf
