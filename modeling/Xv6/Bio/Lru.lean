import Xv6.Bio.Cache
import Mathlib.Algebra.Order.BigOperators.Group.Finset

/-!
# xv6 — which buffer is recycled

`brelse` moves a buffer to the front of the list when its count drops to zero, and nothing else moves
buffers. As long as the count only drops to zero in `brelse`, the buffers without references
therefore stand in the list in the order in which they lost their last one, and `bget`, which looks
from the back, takes the one that lost it first. `bunpin` does not move the buffer: the order rests on
`install_trans` holding the buffer while it unpins it.

Counts are 32-bit words. They do not wrap, because a process has at most two references to a buffer
(the second one while it waits for itself) and the log at most one pin.

* `bget_lru`: a miss recycles the buffer whose count dropped to zero first.
-/

namespace Xv6

variable {n : Nat} {tr : List CacheAct} {s s' : CacheSys} {a : CacheAct}

/-- What the kernel keeps to: `log_write` pins a buffer that its caller holds and that is not yet
pinned, `install_trans` unpins one that it holds. -/
def CacheAct.Issued (s : CacheSys) : CacheAct → Prop
  | .bpin p i => i ∈ (s.th p).held ∧ s.pins i = 0
  | .bunpin p i => i ∈ (s.th p).held
  | _ => True

/-! ## Counts do not wrap -/

/-- How often process `t` has the sleep-lock of buffer `i`. -/
def CacheThread.locks (t : CacheThread) (i : Nat) : Nat :=
  t.held.count i + if t.busy = .loading i then 1 else 0

namespace CacheThread

variable (held : List Nat) (i j : Nat)

@[simp] theorem locks_free : locks ⟨held, .free⟩ j = held.count j := by simp [locks]
@[simp] theorem locks_waiting : locks ⟨held, .waiting i⟩ j = held.count j := by simp [locks]
@[simp] theorem locks_releasing : locks ⟨held, .releasing i⟩ j = held.count j := by simp [locks]

@[simp] theorem locks_loading : locks ⟨held, .loading i⟩ j = held.count j + if i = j then 1 else 0 := by simp [locks]

theorem refs_le (t : CacheThread) (i : Nat) : t.refs i ≤ t.locks i + 1 := by
  unfold refs locks
  split <;> omega

end CacheThread

/-- A process holds a lock once, and is then its owner; a buffer is pinned once. -/
structure Bounded (s : CacheSys) : Prop where
  locks : ∀ p i, (s.th p).locks i ≤ if (s.c.buf i).lock = some p then 1 else 0
  pins  : ∀ i, s.pins i ≤ 1

theorem bounded_initial : Bounded .initial :=
  ⟨fun p i => by simp [CacheSys.initial, CacheThread.locks], fun i => Nat.zero_le _⟩

/-- A step of process `p` that gives the lock of buffer `i` away or takes it. -/
theorem Bounded.of_setTh (h : Bounded s) {p i : Nat} {b : CacheBuf} {t : CacheThread}
    (hOther : ∀ j, j ≠ i → t.locks j = (s.th p).locks j) (hSelf : t.locks i ≤ if b.lock = some p then 1 else 0)
    (hKeep : ∀ q, q ≠ p → (s.c.buf i).lock = some q → b.lock = some q) :
    Bounded ({ s with c := s.c.set i b }.setTh p t) where
  pins := h.pins
  locks q j := by
    have hOld := h.locks q j
    show (upd s.th p t q).locks j ≤ if (upd s.c.buf i b j).lock = some q then 1 else 0
    by_cases hq : q = p
    · subst hq
      rw [upd_self]
      by_cases hj : j = i
      · subst hj
        rwa [upd_self]
      · rwa [upd_of_ne hj, hOther j hj]
    · rw [upd_of_ne hq]
      by_cases hj : j = i
      · subst hj
        rw [upd_self]
        by_cases hLock : (s.c.buf j).lock = some q
        · rw [if_pos hLock] at hOld
          rwa [hKeep q hq hLock, if_pos rfl]
        · rw [if_neg hLock] at hOld
          omega
      · rwa [upd_of_ne hj]

/-- A step that leaves all locks alone. -/
theorem Bounded.of_same (h : Bounded s) {p i : Nat} {b : CacheBuf} {t : CacheThread}
    (hLocks : ∀ j, t.locks j = (s.th p).locks j) (hLock : b.lock = (s.c.buf i).lock) :
    Bounded ({ s with c := s.c.set i b }.setTh p t) := by
  refine h.of_setTh (fun j _ => hLocks j) ?_ fun q _ hq => hLock.trans hq
  rw [hLocks, hLock]
  exact h.locks p i

/-- A step that changes the number of pins. -/
theorem Bounded.of_pins (h : Bounded s) {i m : Nat} {r : BitVec 32} (hm : m ≤ 1) :
    Bounded { s with c := s.c.set i { s.c.buf i with refcnt := r }, pins := upd s.pins i m } where
  locks p j := by
    have hOld := h.locks p j
    by_cases hj : j = i
    · subst hj
      show _ ≤ if (upd s.c.buf j _ j).lock = some p then 1 else 0
      rwa [upd_self]
    · show _ ≤ if (upd s.c.buf i _ j).lock = some p then 1 else 0
      rwa [upd_of_ne hj]
  pins j := by
    by_cases hj : j = i
    · subst hj
      show upd s.pins j m j ≤ 1
      rwa [upd_self]
    · show upd s.pins i m j ≤ 1
      rw [upd_of_ne hj]
      exact h.pins j

theorem Bounded.step (h : Bounded s) (hIssued : a.Issued s) (hAct : s.act a = some (.ok s')) : Bounded s' := by
  cases a with
  | bget p dev blockno =>
    rw [CacheSys.act] at hAct
    split at hAct
    · rename_i hBusy
      obtain ⟨r, hGet, hr⟩ := Option.map_eq_some_iff.mp hAct
      have hSame : ∀ i j, CacheThread.locks { s.th p with busy := .waiting i } j = (s.th p).locks j := fun i j => by
        rw [CacheThread.eta hBusy, CacheThread.locks_free]
        exact CacheThread.locks_waiting ..
      unfold BufCache.bget at hGet
      split at hGet
      · cases hGet
      · cases hGet
        cases hr
        exact h.of_same (hSame _) rfl
      · split at hGet
        · cases hGet
        · cases hGet
          cases hr
          exact h.of_same (hSame _) rfl
        · cases hGet
          cases hr
    · cases hAct
  | lock p =>
    rw [CacheSys.act] at hAct
    split at hAct
    · rename_i i hBusy
      split at hAct
      · rename_i hFree
        cases hAct
        -- nobody had the lock, so this process did not have it either
        have hOld := h.locks p i
        rw [hFree, if_neg (by simp), CacheThread.eta hBusy, CacheThread.locks_waiting] at hOld
        have hNone : ∀ q, q ≠ p → (s.c.buf i).lock = some q → some p = some q := fun q _ hLock => by
          rw [hFree] at hLock
          cases hLock
        split
        · refine h.of_setTh (fun j hj => ?_) ?_ hNone
          · rw [CacheThread.eta hBusy]
            simp [Ne.symm hj]
          · rw [if_pos rfl, CacheThread.locks_free, List.count_cons_self]
            omega
        · refine h.of_setTh (fun j hj => ?_) ?_ hNone
          · rw [CacheThread.eta hBusy]
            simp [Ne.symm hj]
          · rw [if_pos rfl, CacheThread.locks_loading, if_pos rfl]
            omega
      · cases hAct
    · cases hAct
  | load p =>
    rw [CacheSys.act] at hAct
    split at hAct
    · rename_i i hBusy
      cases hAct
      refine h.of_same (fun j => ?_) rfl
      rw [CacheThread.eta hBusy, CacheThread.locks_free, CacheThread.locks_loading, List.count_cons]
      simp only [beq_iff_eq]
    · cases hAct
  | bwrite p i =>
    rw [CacheSys.act] at hAct
    split at hAct
    · split at hAct
      · cases hAct
        exact h
      · cases hAct
    · cases hAct
  | brelse p i =>
    rw [CacheSys.act] at hAct
    split at hAct
    · rename_i hMay
      split at hAct
      · rename_i hLock
        cases hAct
        have hOld := h.locks p i
        rw [hLock, if_pos rfl, CacheThread.eta hMay.1, CacheThread.locks_free] at hOld
        refine h.of_setTh (fun j hj => ?_) ?_ fun q hq hLock' => ?_
        · rw [CacheThread.eta hMay.1, CacheThread.locks_free, CacheThread.locks_releasing]
          exact List.count_erase_of_ne hj
        · rw [CacheThread.locks_releasing, List.count_erase_self]
          omega
        · rw [hLock] at hLock'
          exact absurd (Option.some.inj hLock').symm hq
      · cases hAct
    · cases hAct
  | drop p =>
    rw [CacheSys.act] at hAct
    split at hAct
    · rename_i i hBusy
      cases hAct
      have hSet := h.of_same (p := p) (i := i) (b := { s.c.buf i with refcnt := (s.c.buf i).refcnt - 1 })
        (t := { s.th p with busy := .free }) (fun j => ?_) rfl
      · refine ⟨fun q j => ?_, hSet.pins⟩
        rw [CacheSys.setTh_c, BufCache.drop_buf]
        exact hSet.locks q j
      · rw [CacheThread.eta hBusy, CacheThread.locks_releasing]
        exact CacheThread.locks_free ..
    · cases hAct
  | bpin p i =>
    rw [CacheSys.act] at hAct
    split at hAct
    · cases hAct
      exact h.of_pins (by rw [hIssued.2])
    · cases hAct
  | bunpin p i =>
    rw [CacheSys.act] at hAct
    split at hAct
    · cases hAct
      have hOne := h.pins i
      exact h.of_pins (by omega)
    · cases hAct

theorem bounded_run (h : (cacheLts n).RunIf (fun s a => a.Issued s) tr s) : Bounded s :=
  h.invariant (I := fun _ s => Bounded s) (by rintro _ rfl; exact bounded_initial)
    fun _ s a s' _ hInv hIssued hStep => hInv.step hIssued (CacheSys.step_ok hStep).2

/-- With `NPROC` processes, a count is zero only if there is no reference. -/
theorem Bounded.no_refs (h : Bounded s) (hInv : CacheInv n s) (hn : n ≤ NPROC) {i : Nat} (hi : i < NBUF)
    (hZero : (s.c.buf i).refcnt = 0) : (∀ p < n, (s.th p).refs i = 0) ∧ s.pins i = 0 := by
  have hEach : ∀ p ∈ Finset.range n, (s.th p).refs i ≤ 2 := fun p _ => by
    have hLe := (s.th p).refs_le i
    have hLocks := h.locks p i
    split at hLocks <;> omega
  have hSum := Finset.sum_le_card_nsmul _ _ _ hEach
  rw [Finset.card_range, show n • 2 = n * 2 from rfl] at hSum
  have hPins := h.pins i
  have hNP : NPROC = 64 := rfl
  have hCount := hInv.count i hi
  rw [hZero] at hCount
  have hRefs : s.refs n i = 0 := by
    have hNat := congrArg BitVec.toNat hCount
    rw [BitVec.toNat_ofNat, Nat.mod_eq_of_lt (by unfold CacheSys.refs; omega)] at hNat
    exact hNat.symm
  rw [CacheSys.refs, Nat.add_eq_zero_iff] at hRefs
  exact ⟨fun p hp => Finset.sum_eq_zero_iff.mp hRefs.1 p (Finset.mem_range.mpr hp), hRefs.2⟩

/-! ## The order of the list -/

/-- Step `k` of the history drops the count of buffer `i` to zero. -/
def DroppedAt (n : Nat) (tr : List CacheAct) (k i : Nat) : Prop :=
  (cacheLts n).Enters (fun s => (s.c.buf i).refcnt = 0) tr k

/-- Of two buffers without references, `x` has lost its last one after `y` has, or `y` never had one. -/
def Later (n : Nat) (tr : List CacheAct) (s : CacheSys) (x y : Nat) : Prop :=
  (s.c.buf x).refcnt = 0 → (s.c.buf y).refcnt = 0 → ∀ k, DroppedAt n tr k y → ∃ k', k < k' ∧ DroppedAt n tr k' x

/-- The count of a buffer changes only if the buffer is referred to afterwards, and no buffer moves; but for the end of
`brelse`. -/
theorem act_refcnt (hIssued : a.Issued s) (hAct : s.act a = some (.ok s')) :
    (∃ i, (s.th a.proc).busy = .releasing i ∧ s'.c = s.c.drop i) ∨
    s'.c.links = s.c.links ∧ ∀ j, (s'.c.buf j).refcnt = (s.c.buf j).refcnt ∨ 0 < (s'.th a.proc).refs j ∨ 0 < s'.pins j := by
  -- a buffer is changed that the process refers to
  have hSet : ∀ {p i : Nat} {b : CacheBuf} {t : CacheThread}, (b.refcnt = (s.c.buf i).refcnt ∨ 0 < t.refs i) → ∀ j,
      ((s.c.set i b).buf j).refcnt = (s.c.buf j).refcnt ∨ 0 < (upd s.th p t p).refs j ∨ 0 < s.pins j := by
    intro p i b t hb j
    rw [upd_self]
    by_cases hj : j = i
    · subst hj
      refine hb.imp (fun hEq => ?_) .inl
      show (upd s.c.buf j b j).refcnt = _
      rwa [upd_self]
    · left
      show (upd s.c.buf i b j).refcnt = _
      rw [upd_of_ne hj]
  cases a with
  | bget p dev blockno =>
    rw [CacheSys.act] at hAct
    split at hAct
    · obtain ⟨r, hGet, hr⟩ := Option.map_eq_some_iff.mp hAct
      unfold BufCache.bget at hGet
      split at hGet
      · cases hGet
      · cases hGet
        cases hr
        exact .inr ⟨rfl, hSet (.inr (by simp))⟩
      · split at hGet
        · cases hGet
        · cases hGet
          cases hr
          exact .inr ⟨rfl, hSet (.inr (by simp))⟩
        · cases hGet
          cases hr
    · cases hAct
  | lock | brelse =>
    rw [CacheSys.act] at hAct
    split at hAct
    · split at hAct
      · cases hAct
        exact .inr ⟨rfl, hSet (.inl rfl)⟩
      · cases hAct
    · cases hAct
  | load p =>
    rw [CacheSys.act] at hAct
    split at hAct
    · cases hAct
      exact .inr ⟨rfl, hSet (.inl rfl)⟩
    · cases hAct
  | bwrite p i =>
    rw [CacheSys.act] at hAct
    split at hAct
    · split at hAct
      · cases hAct
        exact .inr ⟨rfl, fun j => .inl rfl⟩
      · cases hAct
    · cases hAct
  | drop p =>
    rw [CacheSys.act] at hAct
    split at hAct
    · rename_i i hBusy
      cases hAct
      exact .inl ⟨i, hBusy, rfl⟩
    · cases hAct
  | bpin p i =>
    rw [CacheSys.act] at hAct
    split at hAct
    · cases hAct
      refine .inr ⟨rfl, fun j => ?_⟩
      by_cases hj : j = i
      · subst hj
        refine .inr (.inr ?_)
        show 0 < upd s.pins j _ j
        rw [upd_self]
        omega
      · left
        show (upd s.c.buf i _ j).refcnt = _
        rw [upd_of_ne hj]
    · cases hAct
  | bunpin p i =>
    rw [CacheSys.act] at hAct
    split at hAct
    · cases hAct
      refine .inr ⟨rfl, fun j => ?_⟩
      by_cases hj : j = i
      · subst hj
        -- the process that unpins it holds it
        have hHeld := List.count_pos_iff.mpr hIssued
        refine .inr (.inl ?_)
        show 0 < (s.th p).refs j
        unfold CacheThread.refs
        omega
      · left
        show (upd s.c.buf i _ j).refcnt = _
        rw [upd_of_ne hj]
    · cases hAct

/-- A step moves no buffer and drops no count to zero, or does both with the same buffer. -/
theorem step_order (hn : n ≤ NPROC) (hInv : CacheInv n s) (hBound : Bounded s) (hIssued : a.Issued s)
    (hStep : (cacheLts n).step s a = some (.ok s')) :
    (s'.c.links = s.c.links ∧ ∀ j < NBUF, (s'.c.buf j).refcnt = 0 → (s.c.buf j).refcnt = 0) ∨
    ∃ i < NBUF, s'.c.links = (s.c.links.unlink i).pushFront headBuf i ∧ (s.c.buf i).refcnt ≠ 0 ∧ (s'.c.buf i).refcnt = 0 ∧
      ∀ j, j ≠ i → (s'.c.buf j).refcnt = (s.c.buf j).refcnt := by
  obtain ⟨hp, hAct⟩ := CacheSys.step_ok hStep
  rcases act_refcnt hIssued hAct with ⟨i, hBusy, hDrop⟩ | ⟨hLinks, hSame⟩
  · have hi := hInv.busy (.inr (.inr hBusy))
    have hOther : ∀ j, j ≠ i → (s'.c.buf j).refcnt = (s.c.buf j).refcnt := fun j hj => by
      rw [hDrop, BufCache.drop_buf, upd_of_ne hj]
    have hSelf : (s'.c.buf i).refcnt = (s.c.buf i).refcnt - 1 := by rw [hDrop, BufCache.drop_buf, upd_self]
    have hRef : (s.c.buf i).refcnt ≠ 0 := fun hZero => by
      have hNone := (hBound.no_refs hInv hn hi hZero).1 _ hp
      rw [CacheThread.refs, if_pos (.inr (.inr hBusy))] at hNone
      omega
    have hLinks : s'.c.links = if (s.c.buf i).refcnt - 1 = 0 then (s.c.links.unlink i).pushFront headBuf i
        else s.c.links := by
      rw [hDrop, BufCache.drop]
      simp only [BufCache.set, upd_self]
      split <;> rfl
    by_cases hLast : (s.c.buf i).refcnt - 1 = 0
    · rw [if_pos hLast] at hLinks
      exact .inr ⟨i, hi, hLinks, hRef, hSelf.trans hLast, hOther⟩
    · rw [if_neg hLast] at hLinks
      refine .inl ⟨hLinks, fun j _ hZero => ?_⟩
      by_cases hj : j = i
      · subst hj
        exact absurd (hSelf.symm.trans hZero) hLast
      · rwa [← hOther j hj]
  · refine .inl ⟨hLinks, fun j hj hZero => ?_⟩
    obtain ⟨hRefs, hPins⟩ := (hBound.step hIssued hAct).no_refs ((cacheMove_of_act hAct).inv hp hInv) hn hj hZero
    rcases hSame j with hEq | hRef | hPin
    · rwa [← hEq]
    · rw [hRefs _ hp] at hRef
      cases hRef
    · rw [hPins] at hPin
      cases hPin

/-- The buffers in the order of the list, the last to lose its references in front. -/
def LruOrder (n : Nat) (tr : List CacheAct) (s : CacheSys) : Prop :=
  ∃ xs : List Nat, xs.Perm (List.range NBUF) ∧ s.c.links.Ring headBuf xs ∧ xs.Pairwise (Later n tr s)

theorem lruOrder_initial : LruOrder n [] .initial := by
  obtain ⟨xs, hPerm, hRing⟩ := (cacheInv_initial n).cache.ring
  refine ⟨xs, hPerm, hRing, List.pairwise_of_forall fun x y _ _ k hDrop => ?_⟩
  exact absurd hDrop.lt (Nat.not_lt_zero k)

theorem unique_init (s s' : CacheSys) (h : (cacheLts n).init s) (h' : (cacheLts n).init s') : s = s' := Eq.trans h (Eq.symm h')

/-- Two buffers that had no references before the step stay in order. -/
theorem Later.step {x y : Nat} (h : Later n tr s x y) (hRun : (cacheLts n).Run tr s)
    (hStep : (cacheLts n).step s a = some (.ok s')) (hx : (s.c.buf x).refcnt = 0) (hy : (s.c.buf y).refcnt = 0) :
    Later n (tr ++ [a]) s' x y := by
  intro _ _ k hDrop
  rcases hDrop.cases unique_init hRun hStep with hOld | ⟨hNot, -⟩
  · obtain ⟨k', hLt, hk'⟩ := h hx hy k hOld
    exact ⟨k', hLt, hk'.append a⟩
  · exact absurd hy hNot

theorem LruOrder.step (hn : n ≤ NPROC) (h : LruOrder n tr s) (hRun : (cacheLts n).Run tr s) (hBound : Bounded s)
    (hIssued : a.Issued s) (hStep : (cacheLts n).step s a = some (.ok s')) : LruOrder n (tr ++ [a]) s' := by
  obtain ⟨xs, hPerm, hRing, hOrder⟩ := h
  have hLt : ∀ {x}, x ∈ xs → x < NBUF := fun hx => List.mem_range.mp (hPerm.mem_iff.mp hx)
  rcases step_order hn (cacheInv_run hRun) hBound hIssued hStep with ⟨hLinks, hZero⟩ | ⟨i, hi, hLinks, hRef, hLast, hSame⟩
  · refine ⟨xs, hPerm, hLinks ▸ hRing, hOrder.imp_of_mem fun {x y} hx hy hLater hx0 hy0 => ?_⟩
    exact hLater.step hRun hStep (hZero x (hLt hx) hx0) (hZero y (hLt hy) hy0) hx0 hy0
  · -- the buffer goes from the middle of the list to its front
    obtain ⟨ys, zs, rfl⟩ := List.append_of_mem (hPerm.mem_iff.mpr (List.mem_range.mpr hi))
    have hNew : i ∉ headBuf :: (ys ++ zs) := by
      have := hRing.nodup
      grind
    have hNe : ∀ {x}, x ∈ ys ++ zs → x ≠ i := fun hx hEq => hNew (List.mem_cons_of_mem _ (hEq ▸ hx))
    refine ⟨i :: (ys ++ zs), List.perm_middle.symm.trans hPerm, hLinks ▸ hRing.unlink.pushFront hNew, ?_⟩
    rw [List.pairwise_cons]
    constructor
    · -- it is the last one to lose its references
      intro y hy _ hy0 k hDrop
      rcases hDrop.cases unique_init hRun hStep with hOld | ⟨hNot, -⟩
      · exact ⟨tr.length, hOld.lt, hRun.enters hStep hRef hLast⟩
      · rw [← hSame y (hNe hy)] at hNot
        exact absurd hy0 hNot
    · have hRest := hOrder.sublist (List.Sublist.append_left (List.sublist_cons_self i zs) ys)
      refine hRest.imp_of_mem fun {x y} hx hy hLater hx0 hy0 => ?_
      rw [hSame x (hNe hx)] at hx0
      rw [hSame y (hNe hy)] at hy0
      exact hLater.step hRun hStep hx0 hy0 (hSame x (hNe hx) ▸ hx0) (hSame y (hNe hy) ▸ hy0)

theorem lruOrder_run (hn : n ≤ NPROC) (h : (cacheLts n).RunIf (fun s a => a.Issued s) tr s) : LruOrder n tr s :=
  h.invariant (I := fun tr s => LruOrder n tr s) (by rintro _ rfl; exact lruOrder_initial)
    fun _ _ _ _ hRun hOrder hIssued hStep => hOrder.step hn hRun.run (bounded_run hRun) hIssued hStep

/-! ## Results -/

/-- The second loop of `bget` takes the last buffer of the list that has no references. -/
theorem LruOrder.victim (h : LruOrder n tr s) {i : Nat} (hVictim : s.c.victim = some (some i)) :
    ∀ j < NBUF, j ≠ i → (s.c.buf j).refcnt = 0 → Later n tr s j i := by
  obtain ⟨xs, hPerm, hRing, hOrder⟩ := h
  have hScan := hRing.scan_prev (fun i => (s.c.buf i).refcnt == 0) (BufCache.Ok.length hPerm)
  have hFind := Option.some.inj (hScan.symm.trans hVictim)
  obtain ⟨-, as, bs, hEq, hNone⟩ := List.find?_eq_some_iff_append.mp hFind
  intro j hj hne hZero
  have hMem : j ∈ xs.reverse := List.mem_reverse.mpr (hPerm.mem_iff.mpr (List.mem_range.mpr hj))
  rw [hEq, List.mem_append, List.mem_cons] at hMem
  have hBehind : j ∈ bs := by
    rcases hMem with hAs | hi | hBs
    · have hNot := hNone j hAs
      simp [hZero] at hNot
    · exact absurd hi hne
    · exact hBs
  rw [← List.reverse_reverse xs, hEq, List.pairwise_reverse, List.pairwise_append] at hOrder
  exact (List.pairwise_cons.mp hOrder.2.1).1 j hBehind

/-- `bget` returns or panics. When the block is not cached it recycles a buffer without references, and every other buffer
without references has lost its last one later: if the count of the recycled one was ever dropped to zero, at some step, that of
the other one was dropped to zero at a later step. It panics only if all buffers have references. -/
theorem bget_lru (hn : n ≤ NPROC) (h : (cacheLts n).RunIf (fun s a => a.Issued s) tr s) (dev blockno : BitVec 32) :
    ∃ r, s.c.bget dev blockno = some r ∧
      (∀ i c', r = .ok (i, c') → (∀ j < NBUF, ¬ ((s.c.buf j).dev = dev ∧ (s.c.buf j).blockno = blockno)) →
        i < NBUF ∧ (s.c.buf i).refcnt = 0 ∧
        c' = s.c.set i { s.c.buf i with dev := dev, blockno := blockno, valid := false, refcnt := 1 } ∧
        ∀ j < NBUF, j ≠ i → (s.c.buf j).refcnt = 0 → ∀ k, DroppedAt n tr k i → ∃ k', k < k' ∧ DroppedAt n tr k' j) ∧
      ∀ e, r = .error e → ∀ j < NBUF, (s.c.buf j).refcnt ≠ 0 := by
  have hOk := (cacheInv_run h.run).cache
  rw [BufCache.bget]
  rcases hOk.lookup dev blockno with ⟨i, hFind, hi, hDev, hBlock⟩ | ⟨hFind, -⟩
  · rw [hFind]
    exact ⟨_, rfl, fun _ _ _ hMiss => absurd ⟨hDev, hBlock⟩ (hMiss i hi), nofun⟩
  · rw [hFind]
    rcases hOk.victim with ⟨i, hVictim, hi, hZero⟩ | ⟨hVictim, hAll⟩
    · rw [hVictim]
      refine ⟨_, rfl, fun i' c' hEq _ => ?_, nofun⟩
      cases hEq
      refine ⟨hi, hZero, rfl, fun j hj hne hj0 => ?_⟩
      exact (lruOrder_run hn h).victim hVictim j hj hne hj0 hj0 hZero
    · rw [hVictim]
      exact ⟨_, rfl, nofun, fun _ _ => hAll⟩

/-- One process reads a block and releases it. -/
def readOnce : List CacheAct := [.bget 0 1 7, .lock 0, .load 0, .brelse 0 0, .drop 0]

/-- The block that is read next gets a buffer without references. -/
theorem bget_lru_readOnce : ∃ s i c', (cacheLts 1).Run readOnce s ∧ s.c.bget 1 8 = some (.ok (i, c')) ∧
    (s.c.buf i).refcnt = 0 ∧ ∀ j < NBUF, j ≠ i → (s.c.buf j).refcnt = 0 →
      ∀ k, DroppedAt 1 readOnce k i → ∃ k', k < k' ∧ DroppedAt 1 readOnce k' j := by
  obtain ⟨s, hExec, hZero, hMiss⟩ : ∃ s, (cacheLts 1).exec .initial readOnce = some s ∧
      (s.c.buf 0).refcnt = 0 ∧ ∀ j < NBUF, ¬ ((s.c.buf j).dev = 1 ∧ (s.c.buf j).blockno = 8) :=
    ⟨_, rfl, by decide +kernel, by decide +kernel⟩
  have hRun := Lts.run_of_exec (Lts.Run.start (M := cacheLts 1) rfl) hExec
  have hIssued : ∀ s, ∀ a ∈ readOnce, a.Issued s := fun s a ha => by
    simp only [readOnce, List.mem_cons, List.not_mem_nil, or_false] at ha
    rcases ha with rfl | rfl | rfl | rfl | rfl <;> trivial
  obtain ⟨r, hGet, hOk, hErr⟩ := bget_lru (by decide) (hRun.runIf hIssued) 1 8
  cases r with
  | error e => exact absurd hZero (hErr e rfl 0 (by decide))
  | ok r =>
    obtain ⟨-, hFree, -, hLater⟩ := hOk r.1 r.2 rfl hMiss
    exact ⟨s, r.1, r.2, hRun, hGet, hFree, hLater⟩

end Xv6
