import Xv6.Bio.Steps
import Mathlib.Algebra.BigOperators.Group.Finset.Basic
import Mathlib.Algebra.BigOperators.Group.Finset.Piecewise

/-!
# xv6 — the invariant of buffer cache and log

The invariant of the running system, in five parts: the identity of buffers (`CacheOk`), their
reference counts (`RefOk`), their sleep-locks (`LockOk`), their contents against the array of
blocks that the history has written (`DataOk`), and the state of the commit in progress
(`CommitOk`). This module states it and shows what all steps have in common: a buffer with
references keeps its identity and its contents (`acted_keep`, `acted_data`), and while some
process is in `commit`, no other process touches the log or the disk (`acted_frame`).
`Bio/Refine.lean` proves that every step keeps the invariant.
-/

namespace Xv6

/-! ## The invariant -/

/-- References that a process in the middle of a `bread` or `brelse` has to buffer `i`. -/
def Busy.refs (i : Nat) : Busy → Nat
  | .free => 0
  | .locking j _ => if j = i then 1 else 0
  | .loading j _ => if j = i then 1 else 0
  | .releasing j => if j = i then 1 else 0

namespace Thread

def idle : Thread := { pc := .idle, held := [], dirty := [], busy := .free }

/-- The references of a process to buffer `i`. -/
def refs (t : Thread) (i : Nat) : Nat := t.held.count i + t.busy.refs i

/-- The buffers whose sleep-lock a process holds. -/
def owned (t : Thread) : List Nat :=
  match t.busy with
  | .loading j _ => j :: t.held
  | _ => t.held

end Thread

namespace BioPc

/-- The buffers that the local variables of `commit` point to. -/
def locals : BioPc → List Nat
  | .commit (.logFrom _ dst) => [dst]
  | .commit (.logCopy _ dst src) => [dst, src]
  | .commit (.logWrite _ dst src) => [dst, src]
  | .commit (.logRelFrom _ dst src) => [dst, src]
  | .commit (.logRelTo _ dst) => [dst]
  | .commit (.headFill _ hb) => [hb]
  | .commit (.headWrite _ hb) => [hb]
  | .commit (.headRel _ hb) => [hb]
  | .commit (.insDst _ src) => [src]
  | .commit (.insCopy _ src dst) => [src, dst]
  | .commit (.insWrite _ src dst) => [src, dst]
  | .commit (.insUnpin _ src dst) => [src, dst]
  | .commit (.insRelLog _ src dst) => [src, dst]
  | .commit (.insRelDst _ dst) => [dst]
  | _ => []

/-- How many of the `len` header entries have their contents in the log. -/
def logged (len : Nat) : BioPc → Nat
  | .commit (.logTo tail) => tail
  | .commit (.logFrom tail _) => tail
  | .commit (.logCopy tail _ _) => tail
  | .commit (.logWrite tail _ _) => tail
  | .commit (.logRelFrom tail _ _) => tail + 1
  | .commit (.logRelTo tail _) => tail + 1
  | .commit _ => len
  | _ => 0

/-- How many of the `len` header entries have been unpinned. -/
def unpinned (len : Nat) : BioPc → Nat
  | .commit (.insLog tail) => tail
  | .commit (.insDst tail _) => tail
  | .commit (.insCopy tail _ _) => tail
  | .commit (.insWrite tail _ _) => tail
  | .commit (.insUnpin tail _ _) => tail
  | .commit (.insRelLog tail _ _) => tail + 1
  | .commit (.insRelDst tail _) => tail + 1
  | .commit .clear => len
  | _ => 0

/-- The buffer that `commit` has changed and not yet written. -/
def unwritten : BioPc → Option Nat
  | .commit (.logWrite _ dst _) => some dst
  | .commit (.headWrite _ hb) => some hb
  | _ => none

/-- `commit` has erased the transaction. -/
def cleared : BioPc → Bool
  | .commit (.headRead true) => true
  | .commit (.headFill true _) => true
  | .commit (.headWrite true _) => true
  | .commit (.headRel true _) => true
  | .commit .ret => true
  | _ => false

/-- The loop index of `commit` is in range and its local variables point to buffers of the right
blocks. -/
def Ok (holds : Nat → Nat → Prop) (l : Log) : BioPc → Prop
  | .commit (.logTo tail) => tail < l.lh.length
  | .commit (.logFrom tail dst) => tail < l.lh.length ∧ holds dst (l.start + tail + 1)
  | .commit (.logCopy tail dst src) => tail < l.lh.length ∧
      holds dst (l.start + tail + 1) ∧ holds src (l.lh.getD tail 0)
  | .commit (.logWrite tail dst src) => tail < l.lh.length ∧
      holds dst (l.start + tail + 1) ∧ holds src (l.lh.getD tail 0)
  | .commit (.logRelFrom tail dst src) => tail < l.lh.length ∧
      holds dst (l.start + tail + 1) ∧ dst ≠ src
  | .commit (.logRelTo tail _) => tail < l.lh.length
  | .commit (.headFill _ hb) => holds hb l.start
  | .commit (.headWrite _ hb) => holds hb l.start
  | .commit (.insLog tail) => tail < l.lh.length
  | .commit (.insDst tail src) => tail < l.lh.length ∧ holds src (l.start + tail + 1)
  | .commit (.insCopy tail src dst) => tail < l.lh.length ∧
      holds src (l.start + tail + 1) ∧ holds dst (l.lh.getD tail 0)
  | .commit (.insWrite tail src dst) => tail < l.lh.length ∧
      holds src (l.start + tail + 1) ∧ holds dst (l.lh.getD tail 0)
  | .commit (.insUnpin tail src dst) => tail < l.lh.length ∧
      holds src (l.start + tail + 1) ∧ holds dst (l.lh.getD tail 0)
  | .commit (.insRelLog tail src dst) => tail < l.lh.length ∧
      holds dst (l.lh.getD tail 0) ∧ dst ≠ src
  | .commit (.insRelDst tail _) => tail < l.lh.length
  | _ => True

end BioPc

theorem not_commit_of_isUser {pc : BioPc} (h : pc.isUser = true) (c : CommitPc) : pc ≠ .commit c := by
  rintro rfl
  cases h

/-- What is asked of the statements of `commit` has no answer elsewhere. -/
theorem commit_of_some {α : Type} {f : BioPc → Option α} {pc : BioPc} {x : α} (h : f pc = some x)
    (hNone : f .idle = none ∧ f .waiting = none ∧ f .inOp = none ∧ f .commitCalled = none) :
    ∃ c, pc = .commit c := by
  cases pc with
  | commit c => exact ⟨c, rfl⟩
  | _ => simp_all

namespace BioSys

/-- Buffer `i` is assigned to block `b`. -/
def Caches (s : BioSys) (i b : Nat) : Prop :=
  (s.cache.buf i).dev = ROOTDEV ∧ (s.cache.buf i).blockno = b

/-- Process `t` has buffer `i`, of block `b`. -/
def Holds (s : BioSys) (t : Thread) (i b : Nat) : Prop :=
  i ∈ t.held ∧ (s.cache.buf i).blockno = b

def PcOk (s : BioSys) (t : Thread) : Prop := t.pc.Ok (s.Holds t) s.log

/-- A process in the middle of a `bread` or `brelse` was allowed to start it. -/
def BusyOk (s : BioSys) (t : Thread) : Prop :=
  match t.busy with
  | .free => True
  | .locking i b => s.Caches i b ∧ (t.pc.isUser = true ∧ s.log.Home b ∨ t.pc.readArg s.log = some b)
  | .loading i b => s.Caches i b ∧ (t.pc.isUser = true ∧ s.log.Home b ∨ t.pc.readArg s.log = some b)
  | .releasing i => (s.cache.buf i).dev = ROOTDEV ∧ i ∉ t.held ∧
      (t.pc.isUser = true ∨ t.pc.relArg = some i)

/-- Pins counted in the reference count of buffer `i`. -/
def pinCount (ps : List Nat) (s : BioSys) (i : Nat) : Nat :=
  if (s.cache.buf i).dev = ROOTDEV then ps.count (s.cache.buf i).blockno else 0

end BioSys

structure CacheOk (s : BioSys) : Prop where
  lru   : ∀ i, i ∈ s.cache.lru ↔ i < NBUF
  uniq  : ∀ i j b, s.Caches i b → s.Caches j b → i = j
  inArr : ∀ i b, s.Caches i b → i < NBUF

def RefOk (n : Nat) (ps : List Nat) (s : BioSys) : Prop :=
  ∀ i, (s.cache.buf i).refcnt = ∑ p ∈ Finset.range n, (s.th p).refs i + s.pinCount ps i

structure LockOk (s : BioSys) : Prop where
  lock  : ∀ i p, (s.cache.buf i).lock = some p ↔ i ∈ (s.th p).owned
  nodup : ∀ p, (s.th p).owned.Nodup
  held  : ∀ p, ∀ i ∈ (s.th p).held,
            (s.cache.buf i).dev = ROOTDEV ∧ (s.cache.buf i).valid = true
  dirty : ∀ p, ∀ i ∈ (s.th p).dirty, i ∈ (s.th p).held ∧ (s.th p).pc = .inOp

/-- Contents, against the array `a` of blocks. -/
structure DataOk (a : Disk) (ps : List Nat) (s : BioSys) : Prop where
  home   : ∀ i b, s.Caches i b → (s.cache.buf i).valid = true → s.log.Home b →
             (s.cache.buf i).data = a b
  disk   : ∀ b, s.log.Home b → s.disk b = a b ∨
             ∃ i, s.Caches i b ∧ (s.cache.buf i).valid = true ∧ (b ∈ ps ∨ ∃ p, i ∈ (s.th p).dirty)
  log    : ∀ i b, s.Caches i b → (s.cache.buf i).valid = true → ¬ s.log.Home b →
             (s.cache.buf i).data = s.disk b ∨ ∃ p, (s.th p).pc.unwritten = some i
  pinned : ∀ b ∈ ps, ∃ i, s.Caches i b ∧ (s.cache.buf i).valid = true

/-- A process, seen against the array `a` and the pins `ps`. For one that commits: what it has
put into the log and onto the disk so far. -/
structure ThreadOk (a : Disk) (ps : List Nat) (s : BioSys) (t : Thread) : Prop where
  pc        : s.PcOk t
  busy      : s.BusyOk t
  heldHome  : ∀ i ∈ t.held, i ∉ t.pc.locals → s.log.Home (s.cache.buf i).blockno
  pins      : ∀ c, t.pc = .commit c → ps = s.log.lh.drop (t.pc.unpinned s.log.lh.length)
  logged    : ∀ k < t.pc.logged s.log.lh.length, k < s.log.lh.length →
                s.disk (s.log.start + k + 1) = a (s.log.lh.getD k 0)
  copied    : ∀ tail dst src, t.pc = .commit (.logWrite tail dst src) →
                (s.cache.buf dst).data = a (s.log.lh.getD tail 0)
  installed : ∀ tail src dst, t.pc = .commit (.insUnpin tail src dst) →
                s.disk (s.log.lh.getD tail 0) = a (s.log.lh.getD tail 0)
  cleared   : t.pc.cleared = true → s.log.lh = []
  header    : ∀ c, t.pc = .commit c → c ≠ .ret → 0 < s.log.size

structure CommitOk (a : Disk) (ps : List Nat) (s : BioSys) : Prop where
  thread   : ∀ p, ThreadOk a ps s (s.th p)
  pinsOpen : (∀ p c, (s.th p).pc ≠ .commit c) → ps = s.log.lh
  lhHome   : ∀ b ∈ s.log.lh, s.log.Home b
  lhFit    : s.log.lh.length ≤ s.log.size - 1

structure BioInv (n : Nat) (d : Disk) (tr : List BioAct) (s : BioSys) : Prop where
  idle   : ∀ p, n ≤ p → s.th p = .idle
  cache  : CacheOk s
  refs   : RefOk n (pins tr) s
  lock   : LockOk s
  data   : DataOk (latest d tr) (pins tr) s
  commit : CommitOk (latest d tr) (pins tr) s

/-! ## Histories -/

theorem latest_snoc (d : Disk) (tr : List BioAct) (a : BioAct) :
    latest d (tr ++ [a]) = match a with
      | .modify _ _ b v => Function.update (latest d tr) b v
      | _ => latest d tr := by
  rw [latest, List.foldl_append]
  rfl

theorem latest_modify (d : Disk) (tr : List BioAct) (p i b : Nat) (v : Block) :
    latest d (tr ++ [.modify p i b v]) = Function.update (latest d tr) b v :=
  latest_snoc d tr _

theorem latest_other (d : Disk) (tr : List BioAct) {a : BioAct}
    (h : ∀ p i b v, a ≠ .modify p i b v) : latest d (tr ++ [a]) = latest d tr := by
  rw [latest_snoc]
  cases a with
  | modify p i b v => exact absurd rfl (h p i b v)
  | _ => rfl

theorem pins_snoc (tr : List BioAct) (a : BioAct) :
    pins (tr ++ [a]) = match a with
      | .logWrite _ _ b true => pins tr ++ [b]
      | .unpin _ b => (pins tr).erase b
      | _ => pins tr := by
  rw [pins, List.foldl_append]
  rfl

/-! ## What `bget` does -/

namespace Bcache

/-- `bget` finds the block in the cache, or takes over a buffer without references. -/
theorem bget_cases {c c' : Bcache} {dev b i : Nat} (h : c.bget dev b = some (i, c')) :
    i ∈ c.lru ∧
      ((c.buf i).dev = dev ∧ (c.buf i).blockno = b ∧
          c' = c.set i { c.buf i with refcnt := (c.buf i).refcnt + 1 } ∨
        (∀ j ∈ c.lru, ¬ ((c.buf j).dev = dev ∧ (c.buf j).blockno = b)) ∧ (c.buf i).refcnt = 0 ∧
          c' = c.set i { c.buf i with dev := dev, blockno := b, valid := false, refcnt := 1 }) := by
  unfold bget at h
  split at h
  · rename_i j hFound
    cases h
    have hj := List.find?_some hFound
    rw [Bool.and_eq_true, beq_iff_eq, beq_iff_eq] at hj
    exact ⟨List.mem_of_find?_eq_some hFound, Or.inl ⟨hj.1, hj.2, rfl⟩⟩
  · rename_i hMiss
    split at h
    · rename_i j hFound
      cases h
      refine ⟨List.mem_reverse.mp (List.mem_of_find?_eq_some hFound), Or.inr ⟨?_, ?_, rfl⟩⟩
      · intro j hj hEq
        have := List.find?_eq_none.mp hMiss j hj
        simp [hEq.1, hEq.2] at this
      · simpa using List.find?_some hFound
    · cases h

end Bcache

/-! ## What all steps have in common -/

/-- The steps that only move a process between operations and commits. -/
def BioAct.isControl : BioAct → Bool
  | .call _ | .sleep _ | .enter _ | .leave _ | .commitStart _ _ | .clear _ | .commitDone _ => true
  | _ => false

/-- The steps of `bread` and `brelse`. -/
def BioAct.isLocal : BioAct → Bool
  | .bget _ _ | .lock _ | .load _ _ _ | .unlock _ _ | .drop _ => true
  | _ => false

namespace BioSys

variable {s s' : BioSys} {p : Nat} {a : BioAct}

/-- How a step changes buffer `j`. -/
inductive BufStep (s s' : BioSys) (p : Nat) : BioAct → Nat → Buf → Prop where
  | hit {q b j} (hId : s.Caches j b) :
      BufStep s s' p (.bget q b) j { s.cache.buf j with refcnt := (s.cache.buf j).refcnt + 1 }
  | take {q b j} (hMem : j ∈ s.cache.lru) (hMiss : ∀ k ∈ s.cache.lru, ¬ s.Caches k b)
      (hZero : (s.cache.buf j).refcnt = 0) (hBusy : (s'.th p).busy = .locking j b) :
      BufStep s s' p (.bget q b) j
        { s.cache.buf j with dev := ROOTDEV, blockno := b, valid := false, refcnt := 1 }
  | lock {q j} : BufStep s s' p (.lock q) j { s.cache.buf j with lock := some p }
  | load {q b j} : BufStep s s' p (.load q j b) j { s.cache.buf j with
      valid := true
      data := if (s.cache.buf j).valid then (s.cache.buf j).data else s.disk (s.cache.buf j).blockno }
  | modify {q b j v} : BufStep s s' p (.modify q j b v) j { s.cache.buf j with data := v }
  | pin {q b j} : BufStep s s' p (.logWrite q j b true) j
      { s.cache.buf j with refcnt := (s.cache.buf j).refcnt + 1 }
  | unlock {q j} : BufStep s s' p (.unlock q j) j { s.cache.buf j with lock := none }
  | drop {q j} : BufStep s s' p (.drop q) j { s.cache.buf j with refcnt := (s.cache.buf j).refcnt - 1 }
  | copy {q j src} (hArgs : (s.th p).pc.copyArgs = some (j, src)) :
      BufStep s s' p (.copy q) j { s.cache.buf j with data := (s.cache.buf src).data }
  | fill {q e j} (hpc : (s.th p).pc = .commit (.headFill e j)) :
      BufStep s s' p (.fill q) j
        { s.cache.buf j with data := fillHead (s.cache.buf j).data s.log.lh }
  | unpin {q b j} : BufStep s s' p (.unpin q b) j
      { s.cache.buf j with refcnt := (s.cache.buf j).refcnt - 1 }

/-- What a step changes, part by part; what is not named here stays. -/
structure Parts (s s' : BioSys) (p : Nat) (a : BioAct) : Prop where
  others : ∀ {q}, q ≠ p → s'.th q = s.th q
  log    : s'.log = s.log ∨ a.isControl = true ∨ ∃ q i b pin, a = .logWrite q i b pin
  disk   : s'.disk = s.disk ∨ ∃ q, a = .bwrite q
  lru    : s'.cache.lru = s.cache.lru ∨
             ∃ i, (s.th p).busy = .releasing i ∧ s'.cache = s.cache.drop i
  buf    : ∀ j, s'.cache.buf j = s.cache.buf j ∨
             ∃ b, s'.cache.buf j = b ∧ BufStep s s' p a j b
  refs   : a.isLocal = true ∨ (s'.th p).held = (s.th p).held ∧ (s'.th p).busy = (s.th p).busy
  held   : ∀ i ∈ (s'.th p).held, i ∈ (s.th p).held ∨
             ∃ q b, a = .load q i b ∧ (s.th p).busy = .loading i b
  dirty  : ∀ i ∈ (s.th p).dirty, i ∈ (s'.th p).dirty ∨ ∃ q b pin, a = .logWrite q i b pin

theorem Parts.setPc {l : Log} {d : Disk} {pc : BioPc} (hLog : l = s.log ∨ a.isControl = true)
    (hDisk : d = s.disk ∨ ∃ q, a = .bwrite q) :
    Parts s ({ s with log := l, disk := d }.setTh p { s.th p with pc }) p a where
  others hq := by rw [setTh_th, if_neg hq]
  log := hLog.imp id Or.inl
  disk := hDisk
  lru := Or.inl rfl
  buf _ := Or.inl rfl
  refs := Or.inr (by simp)
  held _ hi := Or.inl (by simpa using hi)
  dirty _ hi := Or.inl (by simpa using hi)

theorem Parts.set {l : Log} {i : Nat} {b : Buf} {t : Thread}
    (hLog : l = s.log ∨ ∃ q i b pin, a = .logWrite q i b pin)
    (hBuf : BufStep s ({ s with log := l, cache := s.cache.set i b }.setTh p t) p a i b)
    (hRefs : a.isLocal = true ∨ t.held = (s.th p).held ∧ t.busy = (s.th p).busy)
    (hHeld : ∀ i ∈ t.held, i ∈ (s.th p).held ∨
      ∃ q b, a = .load q i b ∧ (s.th p).busy = .loading i b)
    (hDirty : ∀ i ∈ (s.th p).dirty, i ∈ t.dirty ∨ ∃ q b pin, a = .logWrite q i b pin) :
    Parts s ({ s with log := l, cache := s.cache.set i b }.setTh p t) p a where
  others hq := by rw [setTh_th, if_neg hq]
  log := hLog.imp id Or.inr
  disk := Or.inl rfl
  lru := Or.inl rfl
  buf j := by
    by_cases hj : j = i
    · subst hj
      exact Or.inr ⟨b, by rw [setTh_cache, Bcache.set_buf, if_pos rfl], hBuf⟩
    · exact Or.inl (by rw [setTh_cache, Bcache.set_buf, if_neg hj])
  refs := by rwa [setTh_th_self]
  held := by rwa [setTh_th_self]
  dirty := by rwa [setTh_th_self]

theorem acted_parts (h : s.Acted s' p a) : Parts s s' p a := by
  cases a with
  | sleep _ =>
    obtain ⟨-, -, rfl⟩ := h
    exact ⟨fun _ => rfl, Or.inl rfl, Or.inl rfl, Or.inl rfl, fun _ => Or.inl rfl, Or.inr ⟨rfl, rfl⟩,
      fun _ => Or.inl, fun _ => Or.inl⟩
  | call | commitStart =>
    obtain ⟨-, -, rfl⟩ := h
    exact .setPc (Or.inr rfl) (Or.inl rfl)
  | enter _ =>
    obtain ⟨-, l, -, rfl⟩ := h
    exact .setPc (Or.inr rfl) (Or.inl rfl)
  | leave _ =>
    obtain ⟨-, -, -, l, c, -, rfl⟩ := h
    exact .setPc (Or.inr rfl) (Or.inl rfl)
  | clear | commitDone =>
    obtain ⟨-, rfl⟩ := h
    exact .setPc (Or.inr rfl) (Or.inl rfl)
  | bwrite q =>
    obtain ⟨i, -, -, rfl⟩ := h
    exact .setPc (Or.inl rfl) (Or.inr ⟨q, rfl⟩)
  | bget _ b =>
    obtain ⟨-, i, c, hGet, rfl⟩ := h
    obtain ⟨hMem, ⟨hDev, hNo, rfl⟩ | ⟨hMiss, hZero, rfl⟩⟩ := Bcache.bget_cases hGet
    · exact .set (Or.inl rfl) (.hit ⟨hDev, hNo⟩) (Or.inl rfl) (fun _ => Or.inl) fun _ => Or.inl
    · exact .set (Or.inl rfl) (.take hMem hMiss hZero (by simp)) (Or.inl rfl) (fun _ => Or.inl)
        fun _ => Or.inl
  | lock _ =>
    obtain ⟨i, b, -, -, rfl⟩ := h
    exact .set (Or.inl rfl) .lock (Or.inl rfl) (fun _ => Or.inl) fun _ => Or.inl
  | load q i b =>
    obtain ⟨hb, rfl⟩ := h
    refine .set (Or.inl rfl) .load (Or.inl rfl) (fun j hj => ?_) fun _ => Or.inl
    obtain rfl | hj := List.mem_cons.mp hj
    · exact Or.inr ⟨q, b, rfl, hb⟩
    · exact Or.inl hj
  | modify _ i b v =>
    obtain ⟨-, -, -, -, rfl⟩ := h
    exact .set (Or.inl rfl) .modify (Or.inr ⟨rfl, rfl⟩) (fun _ => Or.inl)
      fun _ hj => Or.inl (List.mem_cons_of_mem _ hj)
  | logWrite q i b pin =>
    obtain ⟨-, -, -, -, l, -, rfl⟩ := h
    have hDirty : ∀ j ∈ (s.th p).dirty, j ∈ (s.th p).dirty.filter (· != i) ∨
        ∃ q' b' pin', BioAct.logWrite q i b pin = .logWrite q' j b' pin' := by
      intro j hj
      by_cases hji : j = i
      · exact Or.inr ⟨q, b, pin, by rw [hji]⟩
      · exact Or.inl (by simp [hj, hji])
    cases pin with
    | true =>
      exact .set (Or.inr ⟨q, i, b, true, rfl⟩) .pin (Or.inr ⟨rfl, rfl⟩) (fun _ => Or.inl) hDirty
    | false =>
      exact ⟨fun hq => by rw [setTh_th, if_neg hq], Or.inr (Or.inr ⟨q, i, b, false, rfl⟩),
        Or.inl rfl, Or.inl rfl, fun _ => Or.inl rfl, Or.inr (by simp), fun _ hj => Or.inl (by simpa using hj),
        by simpa using hDirty⟩
  | unlock _ i =>
    obtain ⟨-, -, rfl⟩ := h
    exact .set (Or.inl rfl) .unlock (Or.inl rfl) (fun _ hj => Or.inl (List.mem_of_mem_erase hj))
      fun _ => Or.inl
  | drop _ =>
    obtain ⟨i, hb, rfl⟩ := h
    refine ⟨fun hq => by rw [setTh_th, if_neg hq], Or.inl rfl, Or.inl rfl, Or.inr ⟨i, hb, rfl⟩,
      fun j => ?_, Or.inl rfl, fun _ hj => Or.inl (by simpa using hj), fun _ hj => Or.inl (by simpa using hj)⟩
    rw [setTh_cache, Bcache.drop_buf]
    split
    · rename_i hj
      subst hj
      exact Or.inr ⟨_, rfl, .drop⟩
    · exact Or.inl rfl
  | copy _ =>
    obtain ⟨dst, src, hArgs, rfl⟩ := h
    exact .set (Or.inl rfl) (.copy hArgs) (Or.inr ⟨rfl, rfl⟩) (fun _ => Or.inl) fun _ => Or.inl
  | fill _ =>
    obtain ⟨e, hb, hpc, rfl⟩ := h
    exact .set (Or.inl rfl) (.fill hpc) (Or.inr ⟨rfl, rfl⟩) (fun _ => Or.inl) fun _ => Or.inl
  | unpin _ b =>
    obtain ⟨tail, src, dst, -, -, rfl⟩ := h
    exact .set (Or.inl rfl) .unpin (Or.inr ⟨rfl, rfl⟩) (fun _ => Or.inl) fun _ => Or.inl

theorem acted_th (h : s.Acted s' p a) {q : Nat} (hq : q ≠ p) : s'.th q = s.th q :=
  (acted_parts h).others hq

/-- Buffer `j` keeps its block and stays valid. -/
def SameId (s s' : BioSys) (j : Nat) : Prop :=
  (s'.cache.buf j).dev = (s.cache.buf j).dev ∧
    (s'.cache.buf j).blockno = (s.cache.buf j).blockno ∧
    ((s.cache.buf j).valid = true → (s'.cache.buf j).valid = true)

/-- Process `p` takes over buffer `j` for block `b`, which was not cached. -/
structure Recycled (s s' : BioSys) (p j b : Nat) : Prop where
  unused : (s.cache.buf j).refcnt = 0
  once   : (s'.cache.buf j).refcnt = 1
  valid  : (s'.cache.buf j).valid = false
  caches : s'.Caches j b
  busy   : (s'.th p).busy = .locking j b
  mem    : j ∈ s.cache.lru
  miss   : ∀ k ∈ s.cache.lru, ¬ s.Caches k b

/-- A buffer stays assigned to its block, and stays valid, unless `bget` takes it over. -/
theorem acted_ids (h : s.Acted s' p a) (j : Nat) :
    SameId s s' j ∨ ∃ q b, a = .bget q b ∧ Recycled s s' p j b := by
  obtain hSame | ⟨b', hEq, hBuf⟩ := (acted_parts h).buf j
  · rw [SameId, hSame]
    exact Or.inl ⟨rfl, rfl, id⟩
  · cases hBuf with
    | take hMem hMiss hZero hBusy =>
      refine Or.inr ⟨_, _, rfl, hZero, ?_, ?_, ?_, hBusy, hMem, hMiss⟩
      · rw [hEq]
      · rw [hEq]
      · rw [Caches, hEq]
        exact ⟨rfl, rfl⟩
    | load =>
      rw [SameId, hEq]
      exact Or.inl ⟨rfl, rfl, fun _ => rfl⟩
    | _ =>
      rw [SameId, hEq]
      exact Or.inl ⟨rfl, rfl, id⟩

theorem acted_keep (h : s.Acted s' p a) {j : Nat} (hRef : (s.cache.buf j).refcnt ≠ 0) :
    SameId s s' j := by
  obtain hSame | ⟨q, b, -, hRec⟩ := acted_ids h j
  · exact hSame
  · exact absurd hRec.unused hRef

/-- The contents of a valid buffer change only in these steps. -/
theorem acted_data (h : s.Acted s' p a) {j : Nat} (hValid : (s.cache.buf j).valid = true) :
    (s'.cache.buf j).data = (s.cache.buf j).data ∨ (∃ q b v, a = .modify q j b v) ∨
      (∃ q src, a = .copy q ∧ (s.th p).pc.copyArgs = some (j, src)) ∨
      ∃ q e, a = .fill q ∧ (s.th p).pc = .commit (.headFill e j) := by
  obtain hSame | ⟨b', hEq, hBuf⟩ := (acted_parts h).buf j
  · exact Or.inl (by rw [hSame])
  · cases hBuf with
    | load => exact Or.inl (by rw [hEq]; exact if_pos hValid)
    | modify => exact Or.inr (Or.inl ⟨_, _, _, rfl⟩)
    | copy hArgs => exact Or.inr (Or.inr (Or.inl ⟨_, _, rfl, hArgs⟩))
    | fill hpc => exact Or.inr (Or.inr (Or.inr ⟨_, _, rfl, hpc⟩))
    | _ => exact Or.inl (by rw [hEq])

/-- The place and size of the log are fixed, and its header changes only in `log_write` and at
the end of `commit`. -/
theorem acted_log (h : s.Acted s' p a) :
    s'.log.start = s.log.start ∧ s'.log.size = s.log.size ∧
      (s'.log.lh = s.log.lh ∨ (∃ q i b pin, a = .logWrite q i b pin) ∨ ∃ q, a = .clear q) := by
  obtain hLog | hControl | ⟨q, i, b, pin, rfl⟩ := (acted_parts h).log
  · rw [hLog]
    exact ⟨rfl, rfl, Or.inl rfl⟩
  · cases a with
    | enter _ =>
      obtain ⟨-, l, hl, rfl⟩ := h
      obtain ⟨-, -, rfl⟩ := LogSys.beginOp_some hl
      exact ⟨rfl, rfl, Or.inl rfl⟩
    | leave _ =>
      obtain ⟨-, -, -, l, c, hl, rfl⟩ := h
      obtain ⟨-, hEq⟩ := LogSys.endOp_ok hl
      split at hEq <;> cases hEq <;> exact ⟨rfl, rfl, Or.inl rfl⟩
    | clear q =>
      obtain ⟨-, rfl⟩ := h
      exact ⟨rfl, rfl, Or.inr (Or.inr ⟨q, rfl⟩)⟩
    | sleep | call | commitStart =>
      obtain ⟨-, -, rfl⟩ := h
      exact ⟨rfl, rfl, Or.inl rfl⟩
    | commitDone =>
      obtain ⟨-, rfl⟩ := h
      exact ⟨rfl, rfl, Or.inl rfl⟩
    | _ => cases hControl
  · obtain ⟨-, -, -, -, l, hl, rfl⟩ := h
    obtain ⟨-, -, -, -, rfl⟩ := Log.logWrite_ok hl
    exact ⟨rfl, rfl, Or.inr (Or.inl ⟨q, i, b, pin, rfl⟩)⟩

theorem acted_disk (h : s.Acted s' p a) : s'.disk = s.disk ∨ ∃ q, a = .bwrite q :=
  (acted_parts h).disk

/-- `bread` and `brelse` change neither log nor disk nor the contents of valid buffers. -/
theorem local_frame (h : s.Acted s' p a) (ha : a.isLocal = true) :
    s'.log = s.log ∧ s'.disk = s.disk ∧
      ∀ i, (s.cache.buf i).valid = true → (s'.cache.buf i).data = (s.cache.buf i).data := by
  refine ⟨(acted_parts h).log.resolve_right ?_, (acted_disk h).resolve_right ?_, fun i hValid => ?_⟩
  · rintro (hControl | ⟨q, i, b, pin, rfl⟩)
    · cases a <;> simp [BioAct.isLocal, BioAct.isControl] at ha hControl
    · cases ha
  · rintro ⟨q, rfl⟩
    cases ha
  · obtain hData | ⟨q, b, v, rfl⟩ | ⟨q, src, rfl, -⟩ | ⟨q, e, rfl, -⟩ := acted_data h hValid
    · exact hData
    · cases ha
    · cases ha
    · cases ha

end BioSys

end Xv6
