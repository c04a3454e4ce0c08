import Xv6.Proc.Wakeup

/-!
# xv6 — parents and children

Who is whose parent, and what the thread that is forking or exiting has already done about it. The
parent of a process is alive: a process gives its children away before it becomes a `ZOMBIE`, and
gets no new ones in between, since only itself could fork them and only `initproc` inherits.
-/

namespace Xv6

variable {k k' : Code} {c i nproc p : Nat} {h h' : Shared} {op : KOp} {s : KSys}

/-- A process that has been forked and has not exited. -/
def ProcState.alive : ProcState → Bool
  | .sleeping | .runnable | .running => true
  | _ => false

namespace Code

/-- The new process of a thread in `fork`, as long as it has no parent. -/
def unlinked : Code → Option Nat
  | .fork3 i | .fork4 i | .fork5 i => some i
  | .crit _ _ k | .wake _ _ _ k | .yield1 k | .yield2 k | .yield3 k => k.unlinked
  | _ => none

/-- The new process of a thread in `fork` once its parent is set. -/
def linked : Code → Option Nat
  | .fork6 i | .fork7 i => some i
  | .crit _ _ k | .wake _ _ _ k | .yield1 k | .yield2 k | .yield3 k => k.linked
  | _ => none

/-- In `exit`. -/
def exiting : Code → Bool
  | .exit1 _ | .exit2 .. | .exit3 _ | .exit4 _ | .exit5 => true
  | .crit _ _ k | .wake _ _ _ k | .yield1 k | .yield2 k | .yield3 k => k.exiting
  | _ => false

/-- The thread is past process `q` in `reparent`. -/
def passed (q : Nat) : Code → Prop
  | .exit2 _ j | .wake _ _ _ (.exit2 _ j) => q < j
  | .exit3 _ | .exit4 _ | .wake _ _ _ (.exit3 _) => True
  | _ => False

theorem passed_lockFree (h : k.lockFree = true) (q : Nat) : ¬ k.passed q := by
  revert h
  cases k <;> simp [lockFree, passed]

theorem passed_wake (h : k.afterWake = true) {ch : Option Chan} {held : Bool}
    {q : Nat} : (Code.wake ch i held k).passed q ↔ k.passed q := by
  revert h
  cases k <;> simp [afterWake, passed]

theorem exiting_of_passed {q : Nat} (h : k.passed q) : k.exiting = true := by
  cases k with
  | exit2 | exit3 | exit4 => rfl
  | wake ch i held k =>
    cases k with
    | exit2 | exit3 => rfl
    | _ => cases h
  | _ => cases h

theorem child_of_linked (h : k.linked = some i) : k.child = some i := by
  induction k with
  | fork6 | fork7 => exact h
  | crit _ _ _ ih | wake _ _ _ _ ih | yield1 _ ih | yield2 _ ih | yield3 _ ih => exact ih h
  | _ => cases h

theorem child_of_unlinked (h : k.unlinked = some i) : k.child = some i := by
  induction k with
  | fork3 | fork4 | fork5 => exact h
  | crit _ _ _ ih | wake _ _ _ _ ih | yield1 _ ih | yield2 _ ih | yield3 _ ih => exact ih h
  | _ => cases h

end Code

/-! ## What a thread does to the family -/

/-- Process `p`, going from `k` to `k'`, leaves all parents as they are. -/
structure KinSame (p : Nat) (h : Shared) (k : Code) (h' : Shared) (k' : Code) : Prop where
  parent   : ∀ q, (h'.proc q).parent = (h.proc q).parent
  alive    : ∀ q, (h.proc q).state.alive = true → (h'.proc q).state.alive = true
  forked   : ∀ q, (h'.proc q).state ≠ .unused → (h'.proc q).state ≠ .used →
    (h.proc q).state ≠ .unused ∧ (h.proc q).state ≠ .used ∨ k.linked = some q
  unused   : ∀ q, (h'.proc q).state = .unused → (h.proc q).state = .unused ∨ (h.proc q).parent = none
  unlinked : ∀ i, k'.unlinked = some i → k.unlinked = some i
  linked   : ∀ i, k'.linked = some i → k.linked = some i
  passed   : ∀ q, k'.passed q → k.passed q ∨ (h.proc q).parent ≠ some p

/-- Everything a process does to the family. -/
inductive KinEff (p : Nat) (h : Shared) (k : Code) (h' : Shared) (k' : Code) : Prop where
  | same (hSame : KinSame p h k h' k')
  | link {i : Nat} (hOld : k = .fork5 i) (hNew : k' = .fork6 i)
      (hProc : h'.proc = upd h.proc i { h.proc i with parent := some p })
  | reparent {i : Nat} {status : Int} (hOld : k = .exit2 status i)
      (hNew : k' = .wake (some (.proc initproc)) 0 false (.exit2 status (i + 1)))
      (hChild : (h.proc i).parent = some p)
      (hProc : h'.proc = upd h.proc i { h.proc i with parent := some initproc })
  | reap {i : Nat} (hOld : k = .wait3 i) (hNew : k' = .idle) (hState : (h.proc i).state = .zombie)
      (hProc : h'.proc = upd h.proc i Pcb.free)

/-- Processes do not change. -/
theorem KinSame.refl (hProc : h'.proc = h.proc)
    (hUnlinked : ∀ i, k'.unlinked = some i → k.unlinked = some i)
    (hLinked : ∀ i, k'.linked = some i → k.linked = some i)
    (hPassed : ∀ q, k'.passed q → k.passed q ∨ (h.proc q).parent ≠ some p) : KinSame p h k h' k' where
  parent q := by rw [hProc]
  alive q := by rw [hProc]; exact id
  forked q := by rw [hProc]; exact fun h₁ h₂ => Or.inl ⟨h₁, h₂⟩
  unused q := by rw [hProc]; exact Or.inl
  unlinked := hUnlinked
  linked := hLinked
  passed := hPassed

/-- One process changes and keeps its parent. -/
theorem KinSame.one {b : Pcb}
    (hProc : h'.proc = upd h.proc i b) (hParent : b.parent = (h.proc i).parent)
    (hAlive : (h.proc i).state.alive = true → b.state.alive = true)
    (hForked : b.state ≠ .unused → b.state ≠ .used →
      (h.proc i).state ≠ .unused ∧ (h.proc i).state ≠ .used ∨ k.linked = some i)
    (hUnused : b.state = .unused → (h.proc i).state = .unused ∨ (h.proc i).parent = none)
    (hUnlinked : ∀ i, k'.unlinked = some i → k.unlinked = some i)
    (hLinked : ∀ i, k'.linked = some i → k.linked = some i)
    (hPassed : ∀ q, k'.passed q → k.passed q ∨ (h.proc q).parent ≠ some p) :
    KinSame p h k h' k' := by
  have hCases : ∀ q, h'.proc q = h.proc q ∨ q = i ∧ h'.proc q = b := fun q => by
    rw [hProc]
    by_cases hq : q = i
    · exact Or.inr ⟨hq, by rw [hq, upd_self]⟩
    · exact Or.inl (upd_of_ne hq)
  refine ⟨fun q => ?_, fun q => ?_, fun q => ?_, fun q => ?_, hUnlinked, hLinked, hPassed⟩
  · rcases hCases q with hq | ⟨rfl, hq⟩
    · rw [hq]
    · rw [hq, hParent]
  · rcases hCases q with hq | ⟨rfl, hq⟩
    · rw [hq]
      exact id
    · rw [hq]
      exact hAlive
  · rcases hCases q with hq | ⟨rfl, hq⟩
    · rw [hq]
      exact fun h₁ h₂ => Or.inl ⟨h₁, h₂⟩
    · rw [hq]
      exact hForked
  · rcases hCases q with hq | ⟨rfl, hq⟩
    · rw [hq]
      exact Or.inl
    · rw [hq]
      exact hUnused

/-- The state of a process that is woken up, or not. -/
theorem KinSame.woken {b : Pcb}
    (hProc : h'.proc = upd h.proc i b) (hParent : b.parent = (h.proc i).parent)
    (hState : b.state = (h.proc i).state ∨ (h.proc i).state = .sleeping ∧ b.state = .runnable)
    (hUnlinked : ∀ i, k'.unlinked = some i → k.unlinked = some i)
    (hLinked : ∀ i, k'.linked = some i → k.linked = some i)
    (hPassed : ∀ q, k'.passed q → k.passed q ∨ (h.proc q).parent ≠ some p) :
    KinSame p h k h' k' := by
  refine .one hProc hParent ?_ ?_ ?_ hUnlinked hLinked hPassed <;>
    rcases hState with hSame | ⟨hOld, hNew⟩
  · rw [hSame]
    exact id
  · rw [hNew]
    exact fun _ => rfl
  · rw [hSame]
    exact fun h₁ h₂ => Or.inl ⟨h₁, h₂⟩
  · rw [hOld]
    exact fun _ _ => Or.inl ⟨nofun, nofun⟩
  · rw [hSame]
    exact Or.inl
  · rw [hNew]
    exact nofun

theorem Pcb.wakeup_parent (b : Pcb) (ch : Option Chan) : (b.wakeup ch).parent = b.parent := by
  unfold Pcb.wakeup
  split <;> rfl

theorem Pcb.kill_parent (b : Pcb) : b.kill.parent = b.parent := by
  unfold Pcb.kill
  split <;> rfl

theorem ClientMove.kin {me : Option Nat}
    (hMove : ClientMove nproc c me h k op h' k') (hCode : k.inProc = true ∨ k.inSched = true) :
    KinSame p h k h' k' := by
  cases hMove with
  | set => exact .refl rfl (fun _ => id) (fun _ => id) fun _ => Or.inl
  | wakeup | lock => exact .refl rfl (fun _ => id) (fun _ => id) fun _ => False.elim
  | unlock =>
    have hk := Code.lockFree_of_crit hCode
    exact .refl rfl (fun _ => id) (fun _ => id) fun q hq => absurd hq (Code.passed_lockFree hk q)
  | wakeEnd _ =>
    have hk := Code.afterWake_of_wake hCode
    exact .refl rfl (fun _ => id) (fun _ => id) fun q hq => Or.inl ((Code.passed_wake hk).mpr hq)
  | wakeSkip | wakeLock =>
    have hk := Code.afterWake_of_wake hCode
    exact .refl rfl (fun _ => id) (fun _ => id) fun q hq =>
      Or.inl ((Code.passed_wake hk).mpr ((Code.passed_wake hk).mp hq))
  | @wakeTest ch i =>
    have hk := Code.afterWake_of_wake hCode
    exact .woken rfl ((h.proc i).wakeup_parent ch) ((h.proc i).wakeup_state ch) (fun _ => id)
      (fun _ => id) fun q hq => Or.inl ((Code.passed_wake hk).mpr ((Code.passed_wake hk).mp hq))

/-- `hOut`: processes outside of the table have no parent. -/
theorem ProcMove.kin (hMove : ProcMove nproc c p h k op h' k') (hCode : k.inProc = true)
    (hKid : ∀ i, k.child = some i → (h.proc i).state = .used)
    (hUnlinked : ∀ i, k.unlinked = some i → (h.proc i).parent = none)
    (hOut : ∀ q, nproc ≤ q → (h.proc q).parent = none) : KinEff p h k h' k' := by
  cases hMove with
  | @sleepRelease x => cases x <;> exact .same (.refl rfl nofun nofun nofun)
  | sleepTidy =>
    exact .same (.one rfl rfl id (fun h₁ h₂ => Or.inl ⟨h₁, h₂⟩) Or.inl nofun nofun nofun)
  | yield | yieldLock => exact .same (.refl rfl (fun _ => id) (fun _ => id) nofun)
  | yieldEnd =>
    have hk := (Code.inner (b := Code.inProc) hCode).1
    exact .same (.refl rfl (fun _ => id) (fun _ => id)
      fun q hq => absurd hq (Code.passed_lockFree hk q))
  | @killHit pid i =>
    exact .same (.woken rfl (h.proc i).kill_parent (h.proc i).kill_state nofun nofun nofun)
  | forkCopy | forkWait => exact .same (.refl rfl (fun _ => id) nofun nofun)
  | forkRelock => exact .same (.refl rfl nofun (fun _ => id) nofun)
  | @forkFail i =>
    have hUsed := hKid i rfl
    refine .same (.one rfl (hUnlinked i rfl).symm (fun hAlive => ?_) (fun h => absurd rfl h)
      (fun _ => Or.inr (hUnlinked i rfl)) nofun nofun nofun)
    rw [hUsed] at hAlive
    cases hAlive
  | forkParent => exact .link rfl rfl rfl
  | forkDone => exact .same (.one rfl rfl (fun _ => rfl) (fun _ _ => Or.inr rfl) nofun nofun nofun nofun)
  | @exitWake status i hEnd =>
    refine .same (.refl rfl nofun nofun fun q _ => ?_)
    by_cases hq : q < i
    · exact Or.inl hq
    · rw [hOut q (by omega)]
      exact Or.inr nofun
  | exitReparent hi hChild => exact .reparent rfl rfl hChild rfl
  | @exitSkip status i hi hChild =>
    refine .same (.refl rfl nofun nofun fun q (hq : q < i + 1) => ?_)
    rcases Nat.lt_succ_iff_lt_or_eq.mp hq with hlt | rfl
    · exact Or.inl hlt
    · exact Or.inr hChild
  | exitWait => exact .same (.refl rfl nofun nofun fun q hq => absurd hq (Nat.not_lt_zero q))
  | exitLock => exact .same (.refl rfl nofun nofun fun _ => Or.inl)
  | waitDeliver hState => exact .reap rfl rfl hState rfl
  | client hMove => exact .same (hMove.kin (Or.inl hCode))
  | _ => exact .same (.refl rfl nofun nofun nofun)

/-- Only the call of `exit` starts it. -/
theorem ClientMove.exiting {me : Option Nat}
    (hMove : ClientMove nproc c me h k op h' k') : k'.exiting = k.exiting := by
  cases hMove <;> rfl

theorem ProcMove.exiting
    (hMove : ProcMove nproc c p h k op h' k') (hExit : k'.exiting = true) : k.exiting = true := by
  cases hMove with
  | yield | yieldLock | yieldEnd | exitWait | exitWake | exitReparent | exitSkip | exitLock => exact hExit
  | client hMove => exact hMove.exiting.symm.trans hExit
  | _ => cases hExit

/-! ## The invariant -/

structure FamilyInv (s : KSys) : Prop where
  init     : (s.sh.proc initproc).state.alive = true
  initP    : (s.sh.proc initproc).parent = none
  exiting  : ∀ p, (s.th p).code.exiting = true → p ≠ initproc
  alive    : ∀ q r, (s.sh.proc q).parent = some r → (s.sh.proc r).state.alive = true
  forked   : ∀ q, q ≠ initproc → (s.sh.proc q).state ≠ .unused → (s.sh.proc q).state ≠ .used →
    (s.sh.proc q).parent ≠ none
  unused   : ∀ q, (s.sh.proc q).state = .unused → (s.sh.proc q).parent = none
  unlinked : ∀ p i, (s.th p).code.unlinked = some i → (s.sh.proc i).parent = none
  linked   : ∀ p i, (s.th p).code.linked = some i → (s.sh.proc i).parent = some p
  passed   : ∀ p q, (s.th p).code.passed q → (s.sh.proc q).parent ≠ some p

theorem FamilyInv.outside (h : FamilyInv s) (hRange : RangeInv nproc s)
    {q : Nat} (hq : nproc ≤ q) : (s.sh.proc q).parent = none := by
  by_cases hUnused : (s.sh.proc q).state = .unused
  · exact h.unused q hUnused
  · rcases hRange.live q hUnused with hlt | ⟨rfl, -⟩
    · omega
    · exact h.initP

/-- A step that changes no parent. -/
theorem FamilyInv.of_parents {s' : KSys} (h : FamilyInv s)
    (hParent : ∀ q, (s'.sh.proc q).parent = (s.sh.proc q).parent)
    (hAlive : ∀ q, (s.sh.proc q).state.alive = true → (s'.sh.proc q).state.alive = true ∨
      q ≠ initproc ∧ ∀ r, (s.sh.proc r).parent ≠ some q)
    (hForked : ∀ q, (s'.sh.proc q).state ≠ .unused → (s'.sh.proc q).state ≠ .used →
      (s.sh.proc q).state ≠ .unused ∧ (s.sh.proc q).state ≠ .used ∨ (s.sh.proc q).parent ≠ none)
    (hUnused : ∀ q, (s'.sh.proc q).state = .unused →
      (s.sh.proc q).state = .unused ∨ (s.sh.proc q).parent = none)
    (hExiting : ∀ p, (s'.th p).code.exiting = true → (s.th p).code.exiting = true ∨ p ≠ initproc)
    (hUnlinked : ∀ p i, (s'.th p).code.unlinked = some i →
      (s.th p).code.unlinked = some i ∨ (s.sh.proc i).parent = none)
    (hLinked : ∀ p i, (s'.th p).code.linked = some i → (s.th p).code.linked = some i)
    (hPassed : ∀ p q, (s'.th p).code.passed q →
      (s.th p).code.passed q ∨ (s.sh.proc q).parent ≠ some p) : FamilyInv s' where
  init := (hAlive _ h.init).resolve_right fun hNot => hNot.1 rfl
  initP := (hParent _).trans h.initP
  exiting p hp := (hExiting p hp).elim (h.exiting p) id
  alive q r hr := by
    rw [hParent] at hr
    exact (hAlive r (h.alive q r hr)).resolve_right fun hNot => hNot.2 q hr
  forked q hq h₁ h₂ := by
    rw [hParent]
    exact (hForked q h₁ h₂).elim (fun hOld => h.forked q hq hOld.1 hOld.2) id
  unused q hq := by
    rw [hParent]
    exact (hUnused q hq).elim (h.unused q) id
  unlinked p i hi := by
    rw [hParent]
    exact (hUnlinked p i hi).elim (h.unlinked p i) id
  linked p i hi := by
    rw [hParent]
    exact h.linked p i (hLinked p i hi)
  passed p q hq := by
    rw [hParent]
    exact (hPassed p q hq).elim (h.passed p q) id

/-- A step that changes neither processes nor the code of threads in a way that matters. -/
theorem FamilyInv.of_refl {s' : KSys} (h : FamilyInv s) (hProc : s'.sh.proc = s.sh.proc)
    (hTh : ∀ p, (s'.th p).code = (s.th p).code) : FamilyInv s' :=
  h.of_parents (fun q => by rw [hProc]) (fun q hq => Or.inl (by rwa [hProc]))
    (fun q h₁ h₂ => Or.inl (by rw [hProc] at h₁ h₂; exact ⟨h₁, h₂⟩))
    (fun q hq => Or.inl (by rwa [hProc] at hq)) (fun p hp => Or.inl (by rwa [hTh] at hp))
    (fun p i hi => Or.inl (by rwa [hTh] at hi)) (fun p i hi => by rwa [hTh] at hi)
    (fun p q hq => Or.inl (by rwa [hTh] at hq))

section Run

/-- A property of the code of threads when only thread `p` goes on. -/
theorem forall_setTh {P : Nat → Code → Prop} {t : KThread} (hp : P p t.code)
    (hOther : ∀ q, q ≠ p → P q (s.th q).code) (q : Nat) : P q (upd s.th p t q).code := by
  by_cases hq : q = p
  · rw [hq, upd_self]
    exact hp
  · rw [upd_of_ne hq]
    exact hOther q hq

theorem FamilyInv.run_same (hFam : FamilyInv s) (hKin : KinSame p s.sh (s.th p).code h k)
    (hExit : k.exiting = true → (s.th p).code.exiting = true) :
    FamilyInv ({ s with sh := h }.setTh p { s.th p with code := k }) := by
  refine hFam.of_parents hKin.parent (fun q hq => Or.inl (hKin.alive q hq)) (fun q h₁ h₂ => ?_)
    hKin.unused ?_ ?_ ?_ ?_
  · refine (hKin.forked q h₁ h₂).imp id fun hLinked => ?_
    rw [hFam.linked p q hLinked]
    nofun
  · exact forall_setTh (P := fun q k => k.exiting = true → (s.th q).code.exiting = true ∨ _)
      (fun hk => Or.inl (hExit hk)) fun q _ => Or.inl
  · refine forall_setTh (P := fun q k => ∀ i, k.unlinked = some i →
      (s.th q).code.unlinked = some i ∨ (s.sh.proc i).parent = none) ?_ fun q _ i => Or.inl
    exact fun i hi => Or.inl (hKin.unlinked i hi)
  · exact forall_setTh (P := fun q k => ∀ i, k.linked = some i → (s.th q).code.linked = some i)
      hKin.linked fun q _ i => id
  · refine forall_setTh (P := fun q k => ∀ r, k.passed r →
      (s.th q).code.passed r ∨ (s.sh.proc r).parent ≠ some q) ?_ fun q _ r => Or.inl
    exact hKin.passed

theorem FamilyInv.run_link (hFam : FamilyInv s) (hInv : SchedInv s)
    (hState : (s.sh.proc p).state = .running) (hCode : (s.th p).code = .fork5 i)
    (hProc : h.proc = upd s.sh.proc i { s.sh.proc i with parent := some p }) :
    FamilyInv ({ s with sh := h }.setTh p { s.th p with code := .fork6 i }) := by
  have hChild : (s.th p).code.child = some i := by rw [hCode]; rfl
  have hUsed := hInv.kid p i hChild
  have hi : i ≠ initproc := fun hi => by
    have := hFam.init
    rw [← hi, hUsed] at this
    cases this
  have hst : ∀ q, (h.proc q).state = (s.sh.proc q).state := fun q => by
    rw [hProc]
    by_cases hq : q = i <;> simp [hq]
  have hSelf : (h.proc i).parent = some p := by simp [hProc]
  have hOther : ∀ q, q ≠ i → (h.proc q).parent = (s.sh.proc q).parent := fun q hq => by
    simp [hProc, hq]
  exact
    { init := (congrArg ProcState.alive (hst _)).trans hFam.init
      initP := (hOther _ (Ne.symm hi)).trans hFam.initP
      exiting := forall_setTh (P := fun q k => k.exiting = true → q ≠ initproc) Bool.noConfusion
        fun q _ => hFam.exiting q
      alive := fun q r hr => by
        simp only [KSys.setTh_sh] at hr ⊢
        rw [hst]
        by_cases hq : q = i
        · rw [hq, hSelf] at hr
          rw [← Option.some.inj hr, hState]
          rfl
        · exact hFam.alive q r ((hOther q hq).symm.trans hr)
      forked := fun q hq h₁ h₂ => by
        simp only [KSys.setTh_sh, hst] at h₁ h₂ ⊢
        have hqi : q ≠ i := fun h => by simp [h, hUsed] at h₂
        rw [hOther q hqi]
        exact hFam.forked q hq h₁ h₂
      unused := fun q hq => by
        simp only [KSys.setTh_sh, hst] at hq ⊢
        have hqi : q ≠ i := fun h => by simp [h, hUsed] at hq
        rw [hOther q hqi]
        exact hFam.unused q hq
      unlinked := forall_setTh (P := fun q k => ∀ j, k.unlinked = some j → (h.proc j).parent = none)
        (fun _ => of_none_eq_some) fun q hq j hj => by
          have hji : j ≠ i := fun hji => hq (hInv.kids q p i (hji ▸ Code.child_of_unlinked hj) hChild)
          rw [hOther j hji]
          exact hFam.unlinked q j hj
      linked := forall_setTh (P := fun q k => ∀ j, k.linked = some j → (h.proc j).parent = some q)
        (fun j hj => by cases hj; exact hSelf) fun q hq j hj => by
          have hji : j ≠ i := fun hji => hq (hInv.kids q p i (hji ▸ Code.child_of_linked hj) hChild)
          rw [hOther j hji]
          exact hFam.linked q j hj
      passed := forall_setTh (P := fun q k => ∀ r, k.passed r → (h.proc r).parent ≠ some q)
        (fun _ => False.elim) fun q hq r hr => by
          by_cases hri : r = i
          · rw [hri, hSelf]
            exact fun h => hq (Option.some.inj h).symm
          · rw [hOther r hri]
            exact hFam.passed q r hr }

theorem FamilyInv.run_reparent (hFam : FamilyInv s) {status : Int}
    (hCode : (s.th p).code = .exit2 status i) (hChild : (s.sh.proc i).parent = some p)
    (hProc : h.proc = upd s.sh.proc i { s.sh.proc i with parent := some initproc }) :
    FamilyInv ({ s with sh := h }.setTh p { s.th p with
      code := .wake (some (.proc initproc)) 0 false (.exit2 status (i + 1)) }) := by
  have hp : p ≠ initproc := hFam.exiting p (by rw [hCode]; rfl)
  have hi : i ≠ initproc := fun hi => by
    rw [hi, hFam.initP] at hChild
    cases hChild
  have hst : ∀ q, (h.proc q).state = (s.sh.proc q).state := fun q => by
    rw [hProc]
    by_cases hq : q = i <;> simp [hq]
  have hSelf : (h.proc i).parent = some initproc := by simp [hProc]
  have hOther : ∀ q, q ≠ i → (h.proc q).parent = (s.sh.proc q).parent := fun q hq => by
    simp [hProc, hq]
  have hPassed : ∀ q r, q ≠ initproc → (s.sh.proc r).parent ≠ some q ∨ r = i →
      (h.proc r).parent ≠ some q := fun q r hq hr => by
    by_cases hri : r = i
    · rw [hri, hSelf]
      exact fun h => hq (Option.some.inj h).symm
    · rw [hOther r hri]
      exact hr.resolve_right hri
  exact
    { init := (congrArg ProcState.alive (hst _)).trans hFam.init
      initP := (hOther _ (Ne.symm hi)).trans hFam.initP
      exiting := forall_setTh (P := fun q k => k.exiting = true → q ≠ initproc) (fun _ => hp)
        fun q _ => hFam.exiting q
      alive := fun q r hr => by
        simp only [KSys.setTh_sh] at hr ⊢
        rw [hst]
        by_cases hq : q = i
        · rw [hq, hSelf] at hr
          rw [← Option.some.inj hr]
          exact hFam.init
        · exact hFam.alive q r ((hOther q hq).symm.trans hr)
      forked := fun q hq h₁ h₂ => by
        simp only [KSys.setTh_sh, hst] at h₁ h₂ ⊢
        by_cases hqi : q = i
        · rw [hqi, hSelf]
          exact Option.some_ne_none _
        · rw [hOther q hqi]
          exact hFam.forked q hq h₁ h₂
      unused := fun q hq => by
        simp only [KSys.setTh_sh, hst] at hq ⊢
        have hNone := hFam.unused q hq
        have hqi : q ≠ i := fun h => by simp [h, hChild] at hNone
        rwa [hOther q hqi]
      unlinked := forall_setTh (P := fun q k => ∀ j, k.unlinked = some j → (h.proc j).parent = none)
        (fun _ => of_none_eq_some) fun q hq j hj => by
          have hNone := hFam.unlinked q j hj
          have hji : j ≠ i := fun h => by simp [h, hChild] at hNone
          rwa [hOther j hji]
      linked := forall_setTh (P := fun q k => ∀ j, k.linked = some j → (h.proc j).parent = some q)
        (fun _ => of_none_eq_some) fun q hq j hj => by
          have hSome := hFam.linked q j hj
          have hji : j ≠ i := fun h => by
            rw [h, hChild] at hSome
            exact hq (Option.some.inj hSome).symm
          rwa [hOther j hji]
      passed := forall_setTh (P := fun q k => ∀ r, k.passed r → (h.proc r).parent ≠ some q)
        (fun r (hr : r < i + 1) => by
          refine hPassed p r hp ?_
          rcases Nat.lt_succ_iff_lt_or_eq.mp hr with hlt | rfl
          · exact Or.inl (hFam.passed p r (by rw [hCode]; exact hlt))
          · exact Or.inr rfl)
        fun q hq r hr =>
          hPassed q r (hFam.exiting q (Code.exiting_of_passed hr)) (Or.inl (hFam.passed q r hr)) }

theorem FamilyInv.run_reap (hFam : FamilyInv s) (hInv : SchedInv s)
    (hState : (s.sh.proc i).state = .zombie) (hProc : h.proc = upd s.sh.proc i Pcb.free) :
    FamilyInv ({ s with sh := h }.setTh p { s.th p with code := .idle }) := by
  have hLeaf : ∀ r, (s.sh.proc r).parent ≠ some i := fun r hr => by
    have := hFam.alive r i hr
    rw [hState] at this
    cases this
  have hi : i ≠ initproc := fun hi => by
    have := hFam.init
    rw [← hi, hState] at this
    cases this
  have hFree : h.proc i = Pcb.free := by simp [hProc]
  have hOther : ∀ q, q ≠ i → h.proc q = s.sh.proc q := fun q hq => by simp [hProc, hq]
  exact
    { init := by
        simp only [KSys.setTh_sh]
        rw [hOther _ (Ne.symm hi)]
        exact hFam.init
      initP := by
        simp only [KSys.setTh_sh]
        rw [hOther _ (Ne.symm hi)]
        exact hFam.initP
      exiting := forall_setTh (P := fun q k => k.exiting = true → q ≠ initproc) Bool.noConfusion
        fun q _ => hFam.exiting q
      alive := fun q r hr => by
        simp only [KSys.setTh_sh] at hr ⊢
        by_cases hq : q = i
        · rw [hq, hFree] at hr
          cases hr
        · rw [hOther q hq] at hr
          rw [hOther r fun h => hLeaf q (h ▸ hr)]
          exact hFam.alive q r hr
      forked := fun q hq h₁ h₂ => by
        simp only [KSys.setTh_sh] at h₁ h₂ ⊢
        have hqi : q ≠ i := fun h => by
          rw [h, hFree] at h₁
          exact h₁ rfl
        rw [hOther q hqi] at h₁ h₂ ⊢
        exact hFam.forked q hq h₁ h₂
      unused := fun q hq => by
        simp only [KSys.setTh_sh] at hq ⊢
        by_cases hqi : q = i
        · rw [hqi, hFree]
          rfl
        · rw [hOther q hqi] at hq ⊢
          exact hFam.unused q hq
      unlinked := forall_setTh (P := fun q k => ∀ j, k.unlinked = some j → (h.proc j).parent = none)
        (fun _ => of_none_eq_some) fun q hq j hj => by
          have hUsed := hInv.kid q j (Code.child_of_unlinked hj)
          have hji : j ≠ i := fun h => by simp [h, hState] at hUsed
          rw [hOther j hji]
          exact hFam.unlinked q j hj
      linked := forall_setTh (P := fun q k => ∀ j, k.linked = some j → (h.proc j).parent = some q)
        (fun _ => of_none_eq_some) fun q hq j hj => by
          have hUsed := hInv.kid q j (Code.child_of_linked hj)
          have hji : j ≠ i := fun h => by simp [h, hState] at hUsed
          rw [hOther j hji]
          exact hFam.linked q j hj
      passed := forall_setTh (P := fun q k => ∀ r, k.passed r → (h.proc r).parent ≠ some q)
        (fun _ => False.elim) fun q hq r hr => by
          by_cases hri : r = i
          · rw [hri, hFree]
            exact of_none_eq_some
          · rw [hOther r hri]
            exact hFam.passed q r hr }

/-- A step of the thread of process `p`. -/
theorem FamilyInv.run (hFam : FamilyInv s) (hInv : SchedInv s)
    (hRange : RangeInv nproc s) (hState : (s.sh.proc p).state = .running)
    (hMove : ProcMove nproc c p s.sh (s.th p).code op h k) :
    FamilyInv ({ s with sh := h }.setTh p { s.th p with code := k }) := by
  cases hMove.kin (hInv.codeP p) (hInv.kid p) (hFam.unlinked p) fun _ => hFam.outside hRange with
  | same hSame => exact hFam.run_same hSame hMove.exiting
  | link hOld hNew hProc =>
    subst hNew
    exact hFam.run_link hInv hState hOld hProc
  | reparent hOld hNew hChild hProc =>
    subst hNew
    exact hFam.run_reparent hOld hChild hProc
  | reap hOld hNew hZombie hProc =>
    subst hNew
    exact hFam.run_reap hInv hZombie hProc

end Run

/-- The thread of a scheduler forks nothing. -/
theorem Code.linked_inSched (h : k.inSched = true) : k.linked = none := by
  cases hk : k.linked with
  | none => rfl
  | some i =>
    have hChild := child_of_linked hk
    rw [child_inSched h] at hChild
    cases hChild

/-- The calls of `sched` keep all parents; only `exit`, past all processes, ends a life. -/
theorem SchedMove.kin (hMove : SchedMove p h k op h' k') :
    ∃ b : Pcb, h'.proc = upd h.proc p b ∧ b.parent = (h.proc p).parent ∧
      (b.state.alive = true ∨ b.state = .zombie ∧ ∀ q, k.passed q) ∧
      k'.exiting = k.exiting ∧ (∀ i, k'.unlinked = some i → k.unlinked = some i) ∧
      (∀ i, k'.linked = some i → k.linked = some i) ∧ ∀ q, ¬ k'.passed q := by
  cases hMove with
  | sleep => exact ⟨_, rfl, rfl, Or.inl rfl, rfl, nofun, nofun, fun _ => id⟩
  | yield => exact ⟨_, rfl, rfl, Or.inl rfl, rfl, fun _ => id, fun _ => id, fun _ => id⟩
  | exit => exact ⟨_, rfl, rfl, Or.inr ⟨rfl, fun _ => trivial⟩, rfl, nofun, nofun, fun _ => id⟩

theorem FamilyInv.sched (hFam : FamilyInv s) (hState : (s.sh.proc p).state = .running)
    (hMove : SchedMove p s.sh (s.th p).code op h k) :
    FamilyInv ({ s with sh := h }.setTh p { code := k, sw := .saving }) := by
  obtain ⟨b, hProc, hParent, hLife, hExit, hUnl, hLin, hPas⟩ := hMove.kin
  have hCases : ∀ q, h.proc q = s.sh.proc q ∨ q = p ∧ h.proc q = b := fun q => by
    rw [hProc]
    by_cases hq : q = p
    · exact Or.inr ⟨hq, by rw [hq, upd_self]⟩
    · exact Or.inl (upd_of_ne hq)
  have hGone : b.state ≠ .unused := fun hb => by
    rw [hb] at hLife
    rcases hLife with hAlive | ⟨hZombie, -⟩
    · cases hAlive
    · cases hZombie
  refine hFam.of_parents (fun q => ?_) (fun q hq => ?_) (fun q h₁ h₂ => Or.inl ?_) (fun q hq => Or.inl ?_)
    ?_ ?_ ?_ ?_
  · rcases hCases q with hq | ⟨rfl, hq⟩
    · rw [KSys.setTh_sh, hq]
    · rw [KSys.setTh_sh, hq, hParent]
  · rw [KSys.setTh_sh]
    rcases hCases q with hq' | ⟨rfl, hq'⟩
    · rw [hq']
      exact Or.inl hq
    · rw [hq']
      refine hLife.imp id fun ⟨_, hAll⟩ => ⟨?_, fun r => hFam.passed q r (hAll r)⟩
      exact hFam.exiting q (Code.exiting_of_passed (hAll 0))
  · rw [KSys.setTh_sh] at h₁ h₂
    rcases hCases q with hq | ⟨rfl, hq⟩
    · rw [hq] at h₁ h₂
      exact ⟨h₁, h₂⟩
    · simp [hState]
  · rw [KSys.setTh_sh] at hq
    rcases hCases q with hq' | ⟨rfl, hq'⟩
    · rwa [hq'] at hq
    · rw [hq'] at hq
      exact absurd hq hGone
  · exact forall_setTh (P := fun q k => k.exiting = true → (s.th q).code.exiting = true ∨ _)
      (fun hk => Or.inl (hExit.symm.trans hk)) fun q _ => Or.inl
  · refine forall_setTh (P := fun q k => ∀ i, k.unlinked = some i →
      (s.th q).code.unlinked = some i ∨ (s.sh.proc i).parent = none) ?_ fun q _ i => Or.inl
    exact fun i hi => Or.inl (hUnl i hi)
  · exact forall_setTh (P := fun q k => ∀ i, k.linked = some i → (s.th q).code.linked = some i)
      hLin fun q _ i => id
  · refine forall_setTh (P := fun q k => ∀ r, k.passed r →
      (s.th q).code.passed r ∨ (s.sh.proc r).parent ≠ some q) ?_ fun q _ r => Or.inl
    exact fun r hr => absurd hr (hPas r)

theorem FamilyInv.alloc (hFam : FamilyInv s)
    (hState : (s.sh.proc i).state = .unused) : FamilyInv (s.allocated p i) := by
  have hst : (s.allocated p i).sh.proc =
      upd s.sh.proc i { s.sh.proc i with pid := s.sh.nextpid, state := .used } := rfl
  have hth : ∀ {P : Nat → Code → Prop}, P p (.fork3 i) → P i .forkret →
      (∀ q, P q (s.th q).code) → ∀ q, P q ((s.allocated p i).th q).code := by
    intro P hp hi hOther q
    refine forall_setTh (s := { s with th := upd s.th i ⟨.forkret, .off⟩ }) hp (fun q _ => ?_) q
    exact forall_setTh (s := s) hi (fun q _ => hOther q) q
  refine hFam.of_parents (fun q => ?_) (fun q hq => Or.inl ?_) (fun q h₁ h₂ => Or.inl ?_)
    (fun q hq => Or.inl ?_) ?_ ?_ ?_ ?_
  · rw [hst]
    by_cases hq : q = i <;> simp [hq]
  · have hqi : q ≠ i := fun h => by
      rw [h, hState] at hq
      cases hq
    rwa [hst, upd_of_ne hqi]
  · have hqi : q ≠ i := fun h => h₂ (by simp [hst, h])
    rw [hst, upd_of_ne hqi] at h₁ h₂
    exact ⟨h₁, h₂⟩
  · have hqi : q ≠ i := fun h => by simp [hst, h] at hq
    rwa [hst, upd_of_ne hqi] at hq
  · exact hth (P := fun q k => k.exiting = true → (s.th q).code.exiting = true ∨ q ≠ initproc)
      Bool.noConfusion Bool.noConfusion fun q => Or.inl
  · refine hth (P := fun q k => ∀ j, k.unlinked = some j →
      (s.th q).code.unlinked = some j ∨ (s.sh.proc j).parent = none) ?_ (fun _ => of_none_eq_some) fun q j => Or.inl
    intro j hj
    cases hj
    exact Or.inr (hFam.unused i hState)
  · exact hth (P := fun q k => ∀ j, k.linked = some j → (s.th q).code.linked = some j)
      (fun _ => of_none_eq_some) (fun _ => of_none_eq_some)
      fun q j => id
  · exact hth (P := fun q k => ∀ r, k.passed r → (s.th q).code.passed r ∨ (s.sh.proc r).parent ≠ some q)
      (fun _ => False.elim) (fun _ => False.elim) fun q r => Or.inl

theorem FamilyInv.move {s' : KSys} (h : FamilyInv s)
    (hInv : SchedInv s) (hRange : RangeInv nproc s) (hMove : KMove nproc s c op s') :
    FamilyInv s' := by
  cases hMove with
  | wrap | grab | pass | back => exact h.of_refl rfl fun _ => rfl
  | @pick i _ _ hState =>
    refine h.of_parents (fun q => ?_) (fun q hq => Or.inl ?_) (fun q h₁ h₂ => Or.inl ?_)
      (fun q hq => Or.inl ?_) (fun _ => Or.inl) (fun _ _ => Or.inl) (fun _ _ => id) fun _ _ => Or.inl
    all_goals
      by_cases hqi : q = i
      · subst hqi
        simp_all [ProcState.alive]
      · simp_all
  | @resume i =>
    refine h.of_refl rfl fun q => ?_
    by_cases hq : q = i <;> simp [hq]
  | irq _ hMove =>
    have hKin := hMove.kin (p := 0) (Or.inr (hInv.codeS c))
    refine h.of_parents hKin.parent (fun q hq => Or.inl (hKin.alive q hq)) (fun q h₁ h₂ => Or.inl ?_)
      hKin.unused (fun _ => Or.inl) (fun _ _ => Or.inl) (fun _ _ => id) fun _ _ => Or.inl
    refine (hKin.forked q h₁ h₂).resolve_right fun hLinked => ?_
    rw [Code.linked_inSched (hInv.codeS c)] at hLinked
    cases hLinked
  | @exit p _ _ _ _ hp =>
    refine h.of_parents (fun _ => rfl) (fun _ => Or.inl) (fun _ h₁ h₂ => Or.inl ⟨h₁, h₂⟩)
      (fun _ => Or.inl) ?_ ?_ ?_ ?_
    · exact forall_setTh (P := fun q k => k.exiting = true → (s.th q).code.exiting = true ∨ _)
        (fun _ => Or.inr hp) fun q _ => Or.inl
    · exact forall_setTh (P := fun q k => ∀ i, k.unlinked = some i →
        (s.th q).code.unlinked = some i ∨ (s.sh.proc i).parent = none)
        (fun _ => of_none_eq_some) fun q _ i => Or.inl
    · exact forall_setTh (P := fun q k => ∀ i, k.linked = some i → (s.th q).code.linked = some i)
        (fun _ => of_none_eq_some) fun q _ i => id
    · exact forall_setTh (P := fun q k => ∀ r, k.passed r →
        (s.th q).code.passed r ∨ (s.sh.proc r).parent ≠ some q) (fun _ => False.elim) fun q _ r => Or.inl
  | alloc _ _ _ hState => exact h.alloc hState
  | sched hOn hSw hMove _ _ => exact h.sched (hInv.engaged_run hOn hSw).1 hMove
  | proc hOn hSw hMove => exact h.run hInv hRange (hInv.engaged_run hOn hSw).1 hMove
  | @save p | @leave p =>
    refine h.of_refl rfl fun q => ?_
    by_cases hq : q = p <;> simp [hq]

theorem familyInv_initial (cond : Nat × Nat → Bool) : FamilyInv (KSys.initial cond) := by
  have hProc : (KSys.initial cond).sh.proc =
      upd (fun _ => Pcb.free) initproc { Pcb.free with state := .runnable, pid := 1 } := rfl
  have hParent : ∀ q, ((KSys.initial cond).sh.proc q).parent = none := fun q => by
    rw [hProc]
    by_cases hq : q = initproc <;> simp [hq, Pcb.free]
  refine ⟨?_, hParent _, fun _ => Bool.noConfusion, fun q r hr => ?_, fun q hq h₁ => ?_, fun q _ => hParent q,
    fun _ _ => of_none_eq_some, fun _ _ => of_none_eq_some, fun _ _ => False.elim⟩
  · rw [hProc, upd_self]
    rfl
  · rw [hParent] at hr
    cases hr
  · rw [hProc, upd_of_ne hq] at h₁
    exact absurd rfl h₁

theorem familyInv_run {tr : List (Nat × KOp)} (h : (kLts nproc).Run tr s) :
    FamilyInv s :=
  h.invariant (I := fun _ s => FamilyInv s)
    (by rintro _ ⟨cond, rfl⟩; exact familyInv_initial cond)
    (fun _ _ _ _ hRun hFam hStep =>
      hFam.move (schedInv_run hRun) (rangeInv_run hRun) (kMove_of_step hStep))

end Xv6
