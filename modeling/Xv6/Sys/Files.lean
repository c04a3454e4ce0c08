import Xv6.Sys.Model

/-!
# xv6 — file descriptors and file structures

Rules for the small steps of a system call: looking at and changing an entry of the file table or of the
process table, and the functions that take a free entry of either.
-/

namespace Xv6.Sys

open Hoare

variable {F : Panic → Prop} {s : State} {α : Type}

/-! ## Parts of the state -/

theorem wp_fs {m : Fs.M α} {Q : α → State → Prop} :
    wp F (fs m) Q s ↔ wp (fun e => F (.fs e)) m (fun a c => Q a { s with core := c }) s.core :=
  wp_zoom

theorem wp_vm {m : Vm.M α} {Q : α → State → Prop} :
    wp F (vm m) Q s ↔ wp (fun e => F (.vm e)) m (fun a x => Q a { s with mem := x }) s.mem :=
  wp_zoom

theorem wp_file {f : Nat} {Q : File → State → Prop} : wp F (file f) Q s ↔ Q (s.ftable f) s := by
  rw [file, wp_bind, wp_get, wp_pure]

theorem wp_setFile {f : Nat} {g : File → File} {Q : Unit → State → Prop} :
    wp F (setFile f g) Q s ↔ Q () { s with ftable := upd s.ftable f (g (s.ftable f)) } :=
  wp_modify

theorem wp_setPipe {x : Nat} {pi : Option Pipe} {Q : Unit → State → Prop} :
    wp F (setPipe x pi) Q s ↔ Q () { s with pipe := upd s.pipe x pi } :=
  wp_modify

theorem wp_proc {p : Nat} {Q : Proc → State → Prop} : wp F (proc p) Q s ↔ Q (s.proc p) s := by
  rw [proc, wp_bind, wp_get, wp_pure]

theorem wp_setProc {p : Nat} {g : Proc → Proc} {Q : Unit → State → Prop} :
    wp F (setProc p g) Q s ↔ Q () { s with proc := upd s.proc p (g (s.proc p)) } :=
  wp_modify

theorem wp_deref {x : Nat} {Q : Nat → State → Prop} : wp F (deref (some x)) Q s ↔ Q x s := wp_pure

theorem wp_ifPtr {x : Option Nat} {m : Nat → S Unit} {Q : Unit → State → Prop} (hNone : x = none → Q () s)
    (hSome : ∀ a, x = some a → wp F (m a) Q s) : wp F (ifPtr x m) Q s := by
  cases x with
  | none => exact wp_pure.mpr (hNone rfl)
  | some a => exact hSome a rfl

theorem wp_beginOp {Q : Unit → State → Prop} :
    wp F beginOp Q s ↔ Q () { s with outstanding := s.outstanding + 1 } :=
  wp_modify

theorem wp_endOp {Q : Unit → State → Prop} :
    wp F endOp Q s ↔ Q () { s with outstanding := s.outstanding - 1 } :=
  wp_modify

/-- A transaction is closed when the call returns. -/
theorem wp_transaction {m : Fs.M Int} {Q : Int → State → Prop} :
    wp F (transaction m) Q s ↔ wp (fun e => F (.fs e)) m (fun r c => Q r { s with core := c }) s.core := by
  simp only [transaction, wp_bind, wp_beginOp, wp_fs, wp_endOp, wp_pure, Int.add_sub_cancel]

/-! ## Free entries -/

/-- The state with one file structure changed. -/
def State.setFile (s : State) (f : Nat) (ff : File) : State := { s with ftable := upd s.ftable f ff }

/-- The state with one descriptor changed. -/
def State.setFd (s : State) (p fd : Nat) (f : Option Nat) : State :=
  { s with proc := upd s.proc p { s.proc p with ofile := upd (s.proc p).ofile fd f } }

@[simp] theorem State.setFd_self (s : State) (p fd : Nat) (f : Option Nat) :
    (s.setFd p fd f).proc p = { s.proc p with ofile := upd (s.proc p).ofile fd f } :=
  upd_self ..

/-- A descriptor is closed that was not open before. -/
theorem upd_none {ofile : Nat → Option Nat} {fd : Nat} (h : ofile fd = none) (f : Option Nat) :
    upd (upd ofile fd f) fd none = ofile := by
  rw [upd_upd, ← h, upd_eta]

theorem wp_filealloc {Q : Option Nat → State → Prop}
    (hNone : (∀ f < NFILE, (s.ftable f).ref ≠ 0) → Q none s)
    (hSome : ∀ f < NFILE, (s.ftable f).ref = 0 → Q (some f) (s.setFile f { s.ftable f with ref := 1 })) :
    wp F filealloc Q s := by
  rw [filealloc, wp_bind, wp_get]
  split
  · rename_i f hFind
    rw [wp_bind, wp_setFile, wp_pure]
    exact hSome f (List.mem_range.mp (List.mem_of_find?_eq_some hFind)) (by simpa using List.find?_some hFind)
  · rename_i hFind
    rw [wp_pure]
    refine hNone fun f hf => ?_
    simpa using List.find?_eq_none.mp hFind f (List.mem_range.mpr hf)

theorem wp_setFd {p fd : Nat} {f : Option Nat} {Q : Unit → State → Prop} :
    wp F (setFd p fd f) Q s ↔ Q () (s.setFd p fd f) :=
  wp_setProc

theorem wp_fdalloc {p f : Nat} {Q : Option Nat → State → Prop}
    (hNone : (∀ fd < NOFILE, (s.proc p).ofile fd ≠ none) → Q none s)
    (hSome : ∀ fd < NOFILE, (s.proc p).ofile fd = none → Q (some fd) (s.setFd p fd (some f))) :
    wp F (fdalloc p f) Q s := by
  rw [fdalloc, wp_bind, wp_proc]
  split
  · rename_i fd hFind
    rw [wp_bind, wp_setFd, wp_pure]
    exact hSome fd (List.mem_range.mp (List.mem_of_find?_eq_some hFind)) (by simpa using List.find?_some hFind)
  · rename_i hFind
    rw [wp_pure]
    refine hNone fun fd hfd => ?_
    have hSome := List.find?_eq_none.mp hFind fd (List.mem_range.mpr hfd)
    intro h0
    rw [h0] at hSome
    exact hSome rfl

theorem wp_argfd {p : Nat} {fd : Int} {Q : Option Nat → State → Prop} (hNone : Q none s)
    (hSome : ∀ n < NOFILE, fd = n → ∀ f, (s.proc p).ofile n = some f → Q (some f) s) :
    wp F (argfd p fd) Q s := by
  rw [argfd, wp_ite]
  constructor
  · exact fun _ => wp_pure.mpr hNone
  · intro hIn
    rw [wp_bind, wp_proc, wp_pure]
    cases hFile : (s.proc p).ofile fd.toNat with
    | none => exact hNone
    | some f => exact hSome fd.toNat (by omega) (by omega) f hFile

/-! ## Closing a file -/

open Vm (Layout)

/-- A file structure after its last reference is gone. -/
def File.closed (ff : File) : File := { ff with ref := 0, type := .none }

/-- The end of a pipe is closed: no file and no process sees it. -/
theorem wp_pipeclose {L : Layout} {x : Nat} {w : Bool} :
    wp (fun _ => True) (pipeclose L x w)
      (fun _ s' => s'.core = s.core ∧ s'.ftable = s.ftable ∧ s'.proc = s.proc) s := by
  rw [pipeclose, wp_bind, wp_get]
  split
  · exact wp_throw.mpr trivial
  · dsimp only
    rw [wp_ite]
    constructor
    · intro _
      rw [wp_bind, wp_setPipe, wp_vm]
      exact wp_true.mono fun _ _ _ => ⟨rfl, rfl, rfl⟩
    · intro _
      rw [wp_setPipe]
      exact ⟨rfl, rfl, rfl⟩

/-- The last reference to a file that is no inode. -/
theorem wp_fileclose_last {L : Layout} {f : Nat} (hRef : (s.ftable f).ref = 1)
    (hType : (s.ftable f).type = .none ∨ (s.ftable f).type = .pipe) :
    wp (fun _ => True) (fileclose L f)
      (fun _ s' => s'.core = s.core ∧ s'.ftable = upd s.ftable f (s.ftable f).closed ∧ s'.proc = s.proc) s := by
  rw [fileclose, wp_bind, wp_file, wp_bind, wp_when]
  refine ⟨fun _ => wp_throw.mpr trivial, fun _ => ?_⟩
  rw [if_neg (by omega), wp_bind, wp_setFile]
  rcases hType with hType | hType
  · rw [hType]
    exact wp_pure.mpr ⟨rfl, rfl, rfl⟩
  · rw [hType]
    exact wp_pipeclose.mono fun _ _ h => h

end Xv6.Sys
