import Xv6.Virtio.Desc

/-!
# xv6 — the protocol between the disk driver, the device and the interrupt handler

`VMove` is the step function of the system taken apart, and `VInv` is what every move keeps: the
descriptors are partitioned (`DescInv`), and the heads that are on their way through the avail ring,
the device and the used ring are those of the requests whose `b->disk` is set (`ReqInv`). The rings
never overflow because those heads are different descriptors.

`request p` of a history is the last request of process `p`: its head, and whether the device has
completed it.
-/

namespace Xv6

variable {c : VPc} {s s' : VSys} {a : VAct} {x : Nat} {tr : List VAct}

/-! ## Moves -/

namespace VPc

/-- The request of a process in `virtio_disk_rw`. -/
def req : VPc → Option VReq
  | .idle => none
  | .want r | .alloc r | .noDesc r | .format r _ | .check r _ | .pending r _ => some r

/-- The descriptors of a process. -/
def chain : VPc → Option VChain
  | .format _ t | .check _ t | .pending _ t => some t
  | _ => none

/-- The request that a process has given to the device. -/
def sub : VPc → Option (VReq × VChain)
  | .check r t | .pending r t => some (r, t)
  | _ => none

/-- The process holds `vdisk_lock`. -/
def inside : VPc → Bool
  | .alloc _ | .format _ _ | .check _ _ => true
  | _ => false

theorem req_of_sub {r : VReq} {t : VChain} (h : c.sub = some (r, t)) : c.req = some r := by
  cases c <;> cases h <;> rfl

theorem chain_of_sub {r : VReq} {t : VChain} (h : c.sub = some (r, t)) :
    c.chain = some t := by
  cases c <;> cases h <;> rfl

end VPc

namespace VSys

def req (s : VSys) (p : Nat) : Option VReq := (s.pc p).req
def chain (s : VSys) (p : Nat) : Option VChain := (s.pc p).chain
def sub (s : VSys) (p : Nat) : Option (VReq × VChain) := (s.pc p).sub

@[simp] theorem req_setPc (s : VSys) (p : Nat) (c : VPc) : (s.setPc p c).req = upd s.req p c.req :=
  comp_upd VPc.req s.pc p c

@[simp] theorem chain_setPc (s : VSys) (p : Nat) (c : VPc) :
    (s.setPc p c).chain = upd s.chain p c.chain :=
  comp_upd VPc.chain s.pc p c

@[simp] theorem sub_setPc (s : VSys) (p : Nat) (c : VPc) : (s.setPc p c).sub = upd s.sub p c.sub :=
  comp_upd VPc.sub s.pc p c

end VSys

/-- The successful steps; a process that acquires or releases `vdisk_lock` keeps what it has. -/
inductive VMove (s : VSys) : VAct → VSys → Prop where
  | acquiresleep {p b : Nat} (hFree : s.owner b = none) :
      VMove s (.acquiresleep p b) { s with owner := upd s.owner b (some p) }
  | releasesleep {p b : Nat} (hPc : s.pc p = .idle) (hOwner : s.owner b = some p) :
      VMove s (.releasesleep p b) { s with owner := upd s.owner b none }
  | call {p : Nat} {r : VReq} (hPc : s.pc p = .idle) (hOwner : s.owner r.b = some p) :
      VMove s (.call p r) (s.setPc p (.want r))
  | acquire {p : Nat} {c : VPc} (hLock : s.lock = none) (hReq : c.req = s.req p)
      (hChain : c.chain = s.chain p) (hSub : c.sub = s.sub p) (hIn : c.inside = true) :
      VMove s (.acquire p) ({ s with lock := some (.proc p) }.setPc p c)
  | alloc {p : Nat} {r : VReq} {t : VChain} (hPc : s.pc p = .alloc r) (hNodup : t.idx.Nodup)
      (hFree : ∀ i ∈ t.idx, i < NUM ∧ s.d.free i = true) :
      VMove s (.alloc p) ({ s with d := s.d.take t.idx }.setPc p (.format r t))
  | allocFail {p : Nat} {r : VReq} {d : VDisk} (hPc : s.pc p = .alloc r) (hSame : s.d.Cleared d) :
      VMove s (.alloc p) ({ s with d, lock := none }.setPc p (.noDesc r))
  | submit {p : Nat} {r : VReq} {t : VChain} (hPc : s.pc p = .format r t) :
      VMove s (.submit p t.fst) ({ s with d := s.d.submit r t }.setPc p (.check r t))
  | sleep {p : Nat} {r : VReq} {t : VChain} (hPc : s.pc p = .check r t) :
      VMove s (.sleep p) ({ s with lock := none }.setPc p (.pending r t))
  | ret {p : Nat} {r : VReq} {t : VChain} {d : VDisk} (hPc : s.pc p = .check r t)
      (hDone : s.d.bdisk r.b = false) (hFinish : s.d.finish t = .ok d) :
      VMove s (.ret p) ({ s with d, lock := none }.setPc p .idle)
  | take (hSome : s.d.avail.nread ≠ s.d.avail.nwrite) :
      VMove s .take { s with
        d := { s.d with avail := s.d.avail.pop }, dev := s.d.avail.head NUM :: s.dev }
  | complete {h i : Nat} (hDev : h ∈ s.dev) (hStatus : s.d.statusOf h = .status i) :
      VMove s (.complete h) { s with
        d := { s.d with
          info := upd s.d.info i { s.d.info i with status := 0 }, used := s.d.used.push NUM h }
        dev := s.dev.erase h }
  | intrBegin (hLock : s.lock = none) : VMove s .intrBegin { s with lock := some .intr }
  | intr {b : Nat} (hSome : s.d.used.nread ≠ s.d.used.nwrite)
      (hBuf : (s.d.info (s.d.used.head NUM)).b = some b) :
      VMove s (.intr (s.d.used.head NUM)) { s with
        d := { s.d with bdisk := upd s.d.bdisk b false, used := s.d.used.pop } }
  | intrEnd (hLock : s.lock = some .intr) (hNone : s.d.used.nread = s.d.used.nwrite) :
      VMove s .intrEnd { s with lock := none }

theorem VSys.step_ok (h : s.step a = some (.ok s')) : VMove s a s' := by
  cases a with
  | acquiresleep p b | releasesleep p b | call p r | intrBegin | intrEnd =>
    rw [step] at h
    split at h
    · cases h
      first
      | exact .acquiresleep ‹_›
      | exact .releasesleep (And.left ‹_›) (And.right ‹_›)
      | exact .call (And.left ‹_›) (And.right ‹_›)
      | exact .intrBegin ‹_›
      | exact .intrEnd (And.left ‹_›) (And.right ‹_›)
    · cases h
  | acquire p =>
    rw [step] at h
    split at h
    · rename_i hLock
      split at h
      all_goals first
      | cases h
        rename_i hPc
        exact .acquire hLock (by rw [VSys.req, hPc]; rfl) (by rw [VSys.chain, hPc]; rfl)
          (by rw [VSys.sub, hPc]; rfl) rfl
      | cases h
    · cases h
  | alloc p =>
    rw [step] at h
    split at h
    · rename_i r hPc
      rcases s.d.alloc3_desc_spec with ⟨t, hNodup, hFree, hAlloc⟩ | ⟨d, hAlloc, hSame⟩
      · rw [hAlloc] at h
        cases h
        exact .alloc hPc hNodup hFree
      · rw [hAlloc] at h
        cases h
        exact .allocFail hPc hSame
    · cases h
  | submit p x =>
    rw [step] at h
    split at h
    · split at h
      · rename_i hPc hHead
        cases h
        subst hHead
        exact .submit hPc
      · cases h
    · cases h
  | sleep p =>
    rw [step] at h
    split at h
    · split at h
      · cases h
        exact .sleep ‹_›
      · cases h
    · cases h
  | ret p =>
    rw [step] at h
    split at h
    · rename_i r t hPc
      split at h
      · cases h
      · rename_i hDone
        cases hFinish : s.d.finish t with
        | error e => rw [hFinish] at h; cases h
        | ok d =>
          rw [hFinish] at h
          cases h
          exact .ret hPc (Bool.not_eq_true _ ▸ hDone) hFinish
    · cases h
  | take =>
    rw [step] at h
    split at h
    · cases h
    · cases h
      exact .take ‹_›
  | complete x =>
    rw [step] at h
    split at h
    · split at h
      · cases h
        exact .complete ‹_› ‹_›
      · cases h
    · cases h
  | intr id =>
    rw [step] at h
    split at h
    · rename_i hGuard
      obtain ⟨-, hSome, rfl⟩ := hGuard
      split at h
      · cases h
      · split at h
        · cases h
        · cases h
          exact .intr hSome ‹_›
    · cases h

/-! ## Requests -/

/-- The heads that are in the avail ring, with the device or in the used ring. -/
def VSys.queue (s : VSys) : List Nat := s.d.avail.contents NUM ++ s.dev ++ s.d.used.contents NUM

/-- What the device and the interrupt handler can rely on. -/
structure ReqInv (s : VSys) : Prop where
  chained : ∀ {p r t}, s.sub p = some (r, t) → s.d.Chained r t
  nodup   : s.queue.Nodup
  queued  : ∀ h, h ∈ s.queue ↔ ∃ p r t, s.sub p = some (r, t) ∧ t.fst = h ∧ s.d.bdisk r.b = true
  busy    : ∀ b, s.d.bdisk b = true → ∃ p r t, s.sub p = some (r, t) ∧ r.b = b
  status  : ∀ h ∈ s.d.used.contents NUM, (s.d.info h).status = 0

structure VInv (s : VSys) : Prop where
  desc  : DescInv s.d.free s.chain
  req   : ReqInv s
  owner : ∀ {p r}, s.req p = some r → s.owner r.b = some p
  lock  : ∀ p, (s.pc p).inside = true ↔ s.lock = some (.proc p)

theorem fst_mem_idx (t : VChain) : t.fst ∈ t.idx := List.mem_cons_self

/-- Different heads fit into a ring. -/
theorem length_lt_of_heads {h : Nat} {l : List Nat} (hNodup : (h :: l).Nodup)
    (hLt : ∀ i ∈ h :: l, i < NUM) : l.length < NUM := by
  have hSub : (h :: l).Subperm (List.range NUM) :=
    hNodup.subperm fun i hi => List.mem_range.mpr (hLt i hi)
  have hLen := hSub.length_le
  rwa [List.length_cons, List.length_range] at hLen

theorem numDvd : NUM ∣ 2 ^ 16 := by decide

namespace VInv

variable {p q : Nat} {r r' : VReq} {t t' : VChain}

theorem eq_of_buf (h : VInv s) (hp : s.sub p = some (r, t)) (hq : s.req q = some r')
    (hb : r.b = r'.b) : p = q := by
  have hOwner := h.owner (VPc.req_of_sub hp)
  rw [hb, h.owner hq] at hOwner
  exact (Option.some.inj hOwner).symm

theorem eq_of_head (h : VInv s) (hp : s.sub p = some (r, t)) (hq : s.chain q = some t')
    (hMem : t.fst ∈ t'.idx) : p = q :=
  h.desc.unique (VPc.chain_of_sub hp) hq (fst_mem_idx t) hMem

theorem head_lt (h : VInv s) (hx : x ∈ s.queue) : x < NUM := by
  obtain ⟨p, r, t, hp, rfl, -⟩ := (h.req.queued x).mp hx
  exact h.desc.range (VPc.chain_of_sub hp) _ (fst_mem_idx t)

/-- The request at whose head the device or the handler is. -/
theorem of_queued (h : VInv s) (hx : x ∈ s.queue) :
    ∃ p r t, s.sub p = some (r, t) ∧ t.fst = x ∧ s.d.Chained r t := by
  obtain ⟨p, r, t, hp, hHead, -⟩ := (h.req.queued x).mp hx
  exact ⟨p, r, t, hp, hHead, h.req.chained hp⟩

end VInv

/-- Nothing happens to the requests that have been submitted. -/
theorem ReqInv.congr (h : ReqInv s) (hSub : s'.sub = s.sub)
    (hDesc : ∀ {p r t}, s.sub p = some (r, t) → ∀ i ∈ t.idx, s'.d.desc i = s.d.desc i)
    (hInfo : s'.d.info = s.d.info) (hQueue : s'.queue = s.queue)
    (hUsed : s'.d.used = s.d.used) (hDisk : s'.d.bdisk = s.d.bdisk) : ReqInv s' := by
  refine ⟨fun hp => ?_, ?_, fun x => ?_, fun b hb => ?_, fun x hx => ?_⟩
  · rw [hSub] at hp
    exact (h.chained hp).congr (hDesc hp) (by rw [hInfo])
  · rw [hQueue]
    exact h.nodup
  · rw [hQueue, hSub, hDisk]
    exact h.queued x
  · rw [hDisk] at hb
    rw [hSub]
    exact h.busy b hb
  · rw [hUsed] at hx
    rw [hInfo]
    exact h.status x hx

namespace VInv

variable {p : Nat} {r : VReq} {t : VChain}

/-- The head of a request that is not yet submitted is not on its way. -/
theorem fresh (h : VInv s) (hPc : s.pc p = .format r t) : t.fst ∉ s.queue := fun hMem => by
  obtain ⟨q, r', t', hq, hHead, -⟩ := h.of_queued hMem
  obtain rfl := h.eq_of_head hq (show s.chain p = some t by rw [VSys.chain, hPc]; rfl)
    (hHead ▸ fst_mem_idx t)
  rw [VSys.sub, hPc] at hq
  cases hq

/-- There is room in the avail ring for one more head. -/
theorem avail_room (h : VInv s) (hPc : s.pc p = .format r t) : s.d.avail.len < NUM := by
  rw [show s.d.avail.len = (s.d.avail.contents NUM).length from s.d.avail.length_contents.symm]
  refine length_lt_of_heads (h := t.fst) (List.nodup_cons.mpr ⟨fun hMem => ?_, ?_⟩) fun i hi => ?_
  · exact h.fresh hPc (List.mem_append_left _ (List.mem_append_left _ hMem))
  · exact (List.nodup_append.mp (List.nodup_append.mp h.req.nodup).1).1
  · rcases List.mem_cons.mp hi with rfl | hi
    · exact h.desc.range (p := p) (by rw [VSys.chain, hPc]; rfl) _ (fst_mem_idx t)
    · exact h.head_lt (List.mem_append_left _ (List.mem_append_left _ hi))

theorem submit (h : VInv s) (hPc : s.pc p = .format r t) :
    ReqInv ({ s with d := s.d.submit r t }.setPc p (.check r t)) := by
  have hChain : s.chain p = some t := by rw [VSys.chain, hPc]; rfl
  have hReq : s.req p = some r := by rw [VSys.req, hPc]; rfl
  have hNone : s.sub p = none := by rw [VSys.sub, hPc]; rfl
  -- the submitted requests are those of other processes, with other buffers and other descriptors
  have hOther : ∀ {q r' t'}, s.sub q = some (r', t') → q ≠ p := fun hq hqp => by
    rw [hqp, hNone] at hq
    cases hq
  have hBuf : ∀ {q r' t'}, s.sub q = some (r', t') → r'.b ≠ r.b := fun hq hb =>
    hOther hq (h.eq_of_buf hq hReq hb)
  have hFresh := h.fresh hPc
  have hQueue : ({ s with d := s.d.submit r t }.setPc p (.check r t)).queue.Perm
      (t.fst :: s.queue) := by
    unfold VSys.queue
    show (((s.d.avail.push NUM t.fst).contents NUM ++ s.dev) ++ s.d.used.contents NUM).Perm _
    rw [s.d.avail.contents_push t.fst numDvd (h.avail_room hPc) (by decide), List.append_assoc,
      List.append_assoc, List.append_assoc]
    exact List.perm_middle
  refine ⟨fun {q r' t'} hq => ?_, ?_, fun x => ?_, fun b hb => ?_, fun x hx => ?_⟩
  · rw [VSys.sub_setPc] at hq
    rcases upd_some_eq_some.mp hq with ⟨-, hEq⟩ | ⟨hne, hq⟩
    · cases hEq
      exact s.d.submit_chained r (h.desc.nodup hChain)
    · have hNotMem : ∀ i ∈ t'.idx, i ∉ t.idx := fun i hi =>
        h.desc.notMem hChain (VPc.chain_of_sub hq) hne hi
      refine (h.req.chained hq).congr (fun i hi => s.d.submit_desc r (hNotMem i hi)) ?_
      have hne' : t'.fst ≠ t.fst := fun hEq => hNotMem _ (fst_mem_idx t') (hEq ▸ fst_mem_idx t)
      simp [VSys.setPc, VDisk.submit, hne']
  · exact hQueue.nodup_iff.mpr (List.nodup_cons.mpr ⟨hFresh, h.req.nodup⟩)
  · rw [hQueue.mem_iff, List.mem_cons, VSys.sub_setPc]
    show _ ↔ ∃ q r' t', upd s.sub p (some (r, t)) q = some (r', t') ∧ t'.fst = x ∧
      upd s.d.bdisk r.b true r'.b = true
    constructor
    · rintro (rfl | hx)
      · exact ⟨p, r, t, upd_self .., rfl, upd_self ..⟩
      · obtain ⟨q, r', t', hq, hHead, hBusy⟩ := (h.req.queued x).mp hx
        exact ⟨q, r', t', by rwa [upd_of_ne (hOther hq)], hHead, by rwa [upd_of_ne (hBuf hq)]⟩
    · rintro ⟨q, r', t', hq, hHead, hBusy⟩
      rcases upd_some_eq_some.mp hq with ⟨-, hEq⟩ | ⟨hne, hq⟩
      · cases hEq
        exact .inl hHead.symm
      · rw [upd_of_ne (hBuf hq)] at hBusy
        exact .inr ((h.req.queued x).mpr ⟨q, r', t', hq, hHead, hBusy⟩)
  · rw [VSys.sub_setPc]
    by_cases hb' : b = r.b
    · exact ⟨p, r, t, upd_self .., hb'.symm⟩
    · obtain ⟨q, r', t', hq, hEq⟩ := h.req.busy b (by rwa [← upd_of_ne (f := s.d.bdisk) (v := true) hb'])
      exact ⟨q, r', t', by rwa [upd_of_ne (hOther hq)], hEq⟩
  · have hne : x ≠ t.fst := fun hEq => hFresh (hEq ▸ List.mem_append_right _ hx)
    show (upd s.d.info t.fst _ x).status = 0
    rw [upd_of_ne hne]
    exact h.req.status x hx

theorem finish (h : VInv s) (hPc : s.pc p = .check r t) :
    s.d.finish t = .ok (s.d.freed t) := by
  have hChain : s.chain p = some t := by rw [VSys.chain, hPc]; rfl
  exact VDisk.finish_spec (h.req.chained (p := p) (by rw [VSys.sub, hPc]; rfl)) (h.desc.nodup hChain)
    (h.desc.not_free hChain)

/-- The head of a request that is done is nowhere any more. -/
theorem notMem_queue (h : VInv s) (hp : s.sub p = some (r, t)) (hDone : s.d.bdisk r.b = false) :
    t.fst ∉ s.queue := fun hMem => by
  obtain ⟨q, r', t', hq, hHead, hBusy⟩ := (h.req.queued t.fst).mp hMem
  obtain rfl := h.eq_of_head hp (VPc.chain_of_sub hq) (hHead ▸ fst_mem_idx t')
  rw [hp] at hq
  cases hq
  rw [hDone] at hBusy
  cases hBusy

theorem ret (h : VInv s) (hPc : s.pc p = .check r t) (hDone : s.d.bdisk r.b = false) :
    ReqInv ({ s with d := s.d.freed t, lock := none }.setPc p .idle) := by
  have hp : s.sub p = some (r, t) := by rw [VSys.sub, hPc]; rfl
  have hChain := VPc.chain_of_sub hp
  have hGone := h.notMem_queue hp hDone
  have hKeep : ∀ {q r' t'}, s.sub q = some (r', t') → s.d.bdisk r'.b = true → q ≠ p :=
    fun hq hBusy hqp => by
      rw [hqp, hp] at hq
      cases hq
      rw [hDone] at hBusy
      cases hBusy
  refine ⟨fun {q r' t'} hq => ?_, h.req.nodup, fun x => ?_, fun b hb => ?_, fun x hx => ?_⟩
  · rw [VSys.sub_setPc] at hq
    obtain ⟨hne, hq⟩ := upd_none_eq_some.mp hq
    have hNotMem : ∀ i ∈ t'.idx, i ∉ t.idx := fun i hi =>
      h.desc.notMem hChain (VPc.chain_of_sub hq) hne hi
    refine (h.req.chained hq).congr (fun i hi => s.d.freed_desc (hNotMem i hi)) ?_
    have hne' : t'.fst ≠ t.fst := fun hEq => hNotMem _ (fst_mem_idx t') (hEq ▸ fst_mem_idx t)
    simp [VSys.setPc, VDisk.freed, VDisk.clear, hne']
  · rw [VSys.sub_setPc]
    refine (h.req.queued x).trans ⟨?_, ?_⟩
    · rintro ⟨q, r', t', hq, hHead, hBusy⟩
      exact ⟨q, r', t', by rwa [upd_of_ne (hKeep hq hBusy)], hHead, hBusy⟩
    · rintro ⟨q, r', t', hq, hHead, hBusy⟩
      exact ⟨q, r', t', (upd_none_eq_some.mp hq).2, hHead, hBusy⟩
  · rw [VSys.sub_setPc]
    obtain ⟨q, r', t', hq, hEq⟩ := h.req.busy b hb
    exact ⟨q, r', t', by rwa [upd_of_ne (hKeep hq (hEq ▸ hb))], hEq⟩
  · have hne : x ≠ t.fst := fun hEq => hGone (hEq ▸ List.mem_append_right _ hx)
    show (upd s.d.info t.fst _ x).status = 0
    rw [upd_of_ne hne]
    exact h.req.status x hx

theorem avail_cons (hSome : s.d.avail.nread ≠ s.d.avail.nwrite) :
    s.d.avail.contents NUM = s.d.avail.head NUM :: s.d.avail.pop.contents NUM :=
  s.d.avail.contents_pop numDvd (Nat.pos_of_ne_zero fun h => hSome (s.d.avail.isEmpty_iff.mpr h))

theorem used_cons (hSome : s.d.used.nread ≠ s.d.used.nwrite) :
    s.d.used.contents NUM = s.d.used.head NUM :: s.d.used.pop.contents NUM :=
  s.d.used.contents_pop numDvd (Nat.pos_of_ne_zero fun h => hSome (s.d.used.isEmpty_iff.mpr h))

theorem take (h : VInv s) (hSome : s.d.avail.nread ≠ s.d.avail.nwrite) :
    ReqInv { s with
      d := { s.d with avail := s.d.avail.pop }, dev := s.d.avail.head NUM :: s.dev } := by
  have hQueue : (s.d.avail.pop.contents NUM ++ s.d.avail.head NUM :: s.dev ++
      s.d.used.contents NUM).Perm s.queue := by
    rw [VSys.queue, avail_cons hSome]
    exact List.perm_middle.append_right _
  exact ⟨fun hp => (h.req.chained hp).congr (fun _ _ => rfl) rfl, hQueue.nodup_iff.mpr h.req.nodup,
    fun x => hQueue.mem_iff.trans (h.req.queued x), h.req.busy, h.req.status⟩

theorem complete (h : VInv s) {i : Nat} (hDev : x ∈ s.dev) (hStatus : s.d.statusOf x = .status i) :
    ReqInv { s with
      d := { s.d with
        info := upd s.d.info i { s.d.info i with status := 0 }, used := s.d.used.push NUM x }
      dev := s.dev.erase x } ∧ s.d.used.len < NUM ∧ i = x := by
  have hMem : x ∈ s.queue := List.mem_append_left _ (List.mem_append_right _ hDev)
  -- the status byte is that of the head itself
  obtain rfl : i = x := by
    obtain ⟨p, r, t, -, rfl, hChained⟩ := h.of_queued hMem
    rw [hChained.statusOf] at hStatus
    cases hStatus
    rfl
  obtain ⟨hLeft, hUsed, hDisj⟩ := List.nodup_append.mp h.req.nodup
  have hRoom : s.d.used.len < NUM := by
    rw [show s.d.used.len = (s.d.used.contents NUM).length from s.d.used.length_contents.symm]
    refine length_lt_of_heads (h := i) ?_ fun j hj => ?_
    · exact List.nodup_cons.mpr
        ⟨fun hIn => hDisj i (List.mem_append_right _ hDev) i hIn rfl, hUsed⟩
    · rcases List.mem_cons.mp hj with rfl | hj
      · exact h.head_lt hMem
      · exact h.head_lt (List.mem_append_right _ hj)
  have hPush := s.d.used.contents_push i numDvd hRoom (by decide)
  have hQueue : (s.d.avail.contents NUM ++ s.dev.erase i ++
      (s.d.used.push NUM i).contents NUM).Perm s.queue := by
    rw [hPush, VSys.queue, ← List.append_assoc]
    refine (List.perm_append_singleton _ _).trans ?_
    rw [List.append_assoc, List.append_assoc, ← List.cons_append]
    refine List.perm_middle.symm.trans ?_
    exact ((List.perm_cons_erase hDev).symm.append_right _).append_left _
  refine ⟨⟨fun hp => ?_, hQueue.nodup_iff.mpr h.req.nodup,
    fun y => hQueue.mem_iff.trans (h.req.queued y), h.req.busy, fun y hy => ?_⟩, hRoom, rfl⟩
  · refine (h.req.chained hp).congr (fun _ _ => rfl) ?_
    show (upd s.d.info i _ _).b = _
    rw [upd_apply]
    split
    · rename_i hEq
      rw [hEq]
    · rfl
  · show (upd s.d.info i _ y).status = 0
    by_cases hyi : y = i
    · rw [hyi, upd_self]
    · rw [upd_of_ne hyi]
      have hy' : y ∈ s.d.used.contents NUM ++ [i] := hPush ▸ hy
      rcases List.mem_append.mp hy' with hy' | hy'
      · exact h.req.status y hy'
      · exact absurd (List.mem_singleton.mp hy') hyi

theorem intr (h : VInv s) {b : Nat} (hSome : s.d.used.nread ≠ s.d.used.nwrite)
    (hBuf : (s.d.info (s.d.used.head NUM)).b = some b) :
    ReqInv { s with d := { s.d with bdisk := upd s.d.bdisk b false, used := s.d.used.pop } } := by
  have hCons := used_cons hSome
  have hMem : s.d.used.head NUM ∈ s.queue :=
    List.mem_append_right _ (hCons ▸ List.mem_cons_self)
  obtain ⟨p, r, t, hp, hHead, hChained⟩ := h.of_queued hMem
  obtain rfl : r.b = b := by
    rw [← hHead, hChained.buf] at hBuf
    exact Option.some.inj hBuf
  have hQueue : s.queue.Perm (t.fst :: (s.d.avail.contents NUM ++ s.dev ++
      s.d.used.pop.contents NUM)) := by
    rw [VSys.queue, hCons, hHead]
    exact List.perm_middle
  have hNodup := List.nodup_cons.mp (hQueue.nodup_iff.mp h.req.nodup)
  refine ⟨fun hq => (h.req.chained hq).congr (fun _ _ => rfl) rfl, hNodup.2, fun x => ?_, ?_, ?_⟩
  · show x ∈ s.d.avail.contents NUM ++ s.dev ++ s.d.used.pop.contents NUM ↔
      ∃ q r' t', s.sub q = some (r', t') ∧ t'.fst = x ∧ upd s.d.bdisk r.b false r'.b = true
    constructor
    · intro hx
      obtain ⟨q, r', t', hq, hx', hBusy⟩ :=
        (h.req.queued x).mp (hQueue.mem_iff.mpr (List.mem_cons_of_mem _ hx))
      refine ⟨q, r', t', hq, hx', ?_⟩
      rwa [upd_of_ne]
      intro hb
      obtain rfl := h.eq_of_buf hq (VPc.req_of_sub hp) hb
      rw [hp] at hq
      cases hq
      exact hNodup.1 (hx' ▸ hx)
    · rintro ⟨q, r', t', hq, hx, hBusy⟩
      have hb : r'.b ≠ r.b := fun hb => by
        rw [hb, upd_self] at hBusy
        cases hBusy
      rw [upd_of_ne hb] at hBusy
      have hIn := hQueue.mem_iff.mp ((h.req.queued x).mpr ⟨q, r', t', hq, hx, hBusy⟩)
      refine (List.mem_cons.mp hIn).resolve_left fun hEq => hb ?_
      obtain rfl := h.eq_of_head hp (VPc.chain_of_sub hq) (by rw [← hEq, ← hx]; exact fst_mem_idx t')
      rw [hp] at hq
      cases hq
      rfl
  · intro b hb
    refine h.req.busy b ?_
    have hb' : upd s.d.bdisk r.b false b = true := hb
    by_cases hEq : b = r.b
    · rw [hEq, upd_self] at hb'
      cases hb'
    · rwa [upd_of_ne hEq] at hb'
  · exact fun x hx => h.req.status x (hCons ▸ List.mem_cons_of_mem _ hx)

end VInv

/-! ## Runs -/

namespace VInv

variable {p : Nat}

/-- The process that moves holds `vdisk_lock`; it keeps or releases it. -/
theorem lock_move (h : VInv s) {lock : Option VHolder} (hIn : (s.pc p).inside = true)
    (hLock : c.inside = true ∧ lock = s.lock ∨ c.inside = false ∧ lock = none) :
    ∀ q, (upd s.pc p c q).inside = true ↔ lock = some (.proc q) := by
  have hp := (h.lock p).mp hIn
  intro q
  by_cases hqp : q = p
  · rw [hqp, upd_self]
    rcases hLock with ⟨hc, rfl⟩ | ⟨hc, rfl⟩
    · simp [hc, hp]
    · simp [hc]
  · rw [upd_of_ne hqp, h.lock q, hp]
    have hne : p ≠ q := fun hEq => hqp hEq.symm
    rcases hLock with ⟨-, rfl⟩ | ⟨-, rfl⟩ <;> simp [hp, hne]

theorem owner_move (h : VInv s) (hReq : c.req = s.req p ∨ c.req = none) {q : Nat} {r : VReq}
    (hq : upd s.req p c.req q = some r) : s.owner r.b = some q := by
  by_cases hqp : q = p
  · rw [hqp, upd_self] at hq
    rcases hReq with hReq | hReq
    · exact hqp ▸ h.owner (hReq ▸ hq)
    · rw [hReq] at hq
      cases hq
  · rw [upd_of_ne hqp] at hq
    exact h.owner hq

end VInv

theorem vInv_initial : VInv .initial where
  desc := ⟨nofun, nofun, nofun, fun _ => ⟨nofun, nofun⟩⟩
  req := ⟨nofun, List.nodup_nil, fun _ => ⟨nofun, nofun⟩, nofun, nofun⟩
  owner := nofun
  lock := fun _ => ⟨nofun, nofun⟩

theorem VMove.inv (hMove : VMove s a s') (h : VInv s) : VInv s' := by
  cases hMove with
  | @acquiresleep p b hFree =>
    refine ⟨h.desc, h.req.congr rfl (fun _ _ _ => rfl) rfl rfl rfl rfl, fun {q r} hq => ?_, h.lock⟩
    have hOwner := h.owner (p := q) hq
    refine (upd_of_ne fun hb => ?_).trans hOwner
    rw [hb, hFree] at hOwner
    cases hOwner
  | @releasesleep p b hPc hOwner =>
    refine ⟨h.desc, h.req.congr rfl (fun _ _ _ => rfl) rfl rfl rfl rfl, fun {q r} hq => ?_, h.lock⟩
    have hOwner' := h.owner (p := q) hq
    refine (upd_of_ne fun hb => ?_).trans hOwner'
    rw [hb, hOwner] at hOwner'
    cases hOwner'
    rw [VSys.req] at hq
    rw [hPc] at hq
    cases hq
  | @call p r hPc hOwner =>
    have hSame : ∀ {β : Type} (f : VPc → β), f (.want r) = f .idle →
        upd (fun q => f (s.pc q)) p (f (.want r)) = fun q => f (s.pc q) := fun f hf => by
      rw [hf, ← hPc]
      exact upd_eta (fun q => f (s.pc q)) p
    refine ⟨?_, h.req.congr ?_ (fun _ _ _ => rfl) rfl rfl rfl rfl, fun {q r'} hq => ?_, fun q => ?_⟩
    · rw [VSys.chain_setPc]
      exact (hSame VPc.chain rfl).symm ▸ h.desc
    · rw [VSys.sub_setPc]
      exact hSame VPc.sub rfl
    · rw [VSys.req_setPc] at hq
      by_cases hqp : q = p
      · rw [hqp, upd_self] at hq
        cases hq
        rw [hqp]
        exact hOwner
      · rw [upd_of_ne hqp] at hq
        exact h.owner hq
    · have hIn := congrFun (hSame VPc.inside rfl) q
      rw [← comp_upd] at hIn
      exact (iff_of_eq (congrArg (· = true) hIn)).trans (h.lock q)
  | @acquire p c hLock hReq hChain hSub hIn =>
    refine ⟨?_, h.req.congr ?_ (fun _ _ _ => rfl) rfl rfl rfl rfl, fun {q r} hq => ?_, fun q => ?_⟩
    · rw [VSys.chain_setPc, hChain]
      exact (upd_eta s.chain p).symm ▸ h.desc
    · rw [VSys.sub_setPc, hSub]
      exact upd_eta s.sub p
    · rw [VSys.req_setPc] at hq
      exact h.owner_move (.inl hReq) hq
    · show (upd s.pc p c q).inside = true ↔ some (.proc p) = some (VHolder.proc q)
      by_cases hqp : q = p
      · simp [hqp, hIn]
      · have hOut := h.lock q
        rw [hLock] at hOut
        have hne : p ≠ q := fun hEq => hqp hEq.symm
        simpa [hqp, hne] using hOut
  | @alloc p r t hPc hNodup hFree =>
    have hNone : s.chain p = none := by rw [VSys.chain, hPc]; rfl
    refine ⟨?_, h.req.congr ?_ (fun _ _ _ => rfl) rfl rfl rfl rfl, fun {q r'} hq => ?_,
      h.lock_move (by rw [hPc]; rfl) (.inl ⟨rfl, rfl⟩)⟩
    · rw [VSys.chain_setPc]
      exact h.desc.take hNone hNodup hFree
    · rw [VSys.sub_setPc]
      have hSub : VPc.sub (.format r t) = s.sub p := by rw [VSys.sub, hPc]; rfl
      rw [hSub]
      exact upd_eta s.sub p
    · rw [VSys.req_setPc] at hq
      exact h.owner_move (.inl (by rw [VSys.req, hPc]; rfl)) hq
  | @allocFail p r d hPc hSame =>
    have hEq : ∀ {β : Type} (f : VDisk → β), (∀ desc, f { s.d with desc } = f s.d) → f d = f s.d :=
      fun f hf => by rw [hSame.eq, hf]
    have hFree : d.free = s.d.free := hEq VDisk.free fun _ => rfl
    have hSub : VPc.sub (.noDesc r) = s.sub p := by rw [VSys.sub, hPc]; rfl
    have hChain : VPc.chain (.noDesc r) = s.chain p := by rw [VSys.chain, hPc]; rfl
    refine ⟨?_, h.req.congr ?_ ?_ (hEq VDisk.info fun _ => rfl) ?_ (hEq VDisk.used fun _ => rfl)
      (hEq VDisk.bdisk fun _ => rfl), fun {q r'} hq => ?_,
      h.lock_move (by rw [hPc]; rfl) (.inr ⟨rfl, rfl⟩)⟩
    · rw [VSys.chain_setPc, hChain]
      show DescInv d.free (upd s.chain p (s.chain p))
      rw [hFree, upd_eta]
      exact h.desc
    · rw [VSys.sub_setPc, hSub]
      exact upd_eta s.sub p
    · exact fun hq i hi => hSame.desc i (h.desc.not_free (VPc.chain_of_sub hq) i hi).2
    · show d.avail.contents NUM ++ s.dev ++ d.used.contents NUM = s.queue
      rw [hEq VDisk.avail fun _ => rfl, hEq VDisk.used fun _ => rfl]
      rfl
    · rw [VSys.req_setPc] at hq
      exact h.owner_move (.inl (by rw [VSys.req, hPc]; rfl)) hq
  | @submit p r t hPc =>
    have hChain : VPc.chain (.check r t) = s.chain p := by rw [VSys.chain, hPc]; rfl
    refine ⟨?_, h.submit hPc, fun {q r'} hq => ?_, h.lock_move (by rw [hPc]; rfl) (.inl ⟨rfl, rfl⟩)⟩
    · rw [VSys.chain_setPc, hChain]
      exact (upd_eta s.chain p).symm ▸ h.desc
    · rw [VSys.req_setPc] at hq
      exact h.owner_move (.inl (by rw [VSys.req, hPc]; rfl)) hq
  | @sleep p r t hPc =>
    have hChain : VPc.chain (.pending r t) = s.chain p := by rw [VSys.chain, hPc]; rfl
    have hSub : VPc.sub (.pending r t) = s.sub p := by rw [VSys.sub, hPc]; rfl
    refine ⟨?_, h.req.congr ?_ (fun _ _ _ => rfl) rfl rfl rfl rfl, fun {q r'} hq => ?_,
      h.lock_move (by rw [hPc]; rfl) (.inr ⟨rfl, rfl⟩)⟩
    · rw [VSys.chain_setPc, hChain]
      exact (upd_eta s.chain p).symm ▸ h.desc
    · rw [VSys.sub_setPc, hSub]
      exact upd_eta s.sub p
    · rw [VSys.req_setPc] at hq
      exact h.owner_move (.inl (by rw [VSys.req, hPc]; rfl)) hq
  | @ret p r t d hPc hDone hFinish =>
    rw [h.finish hPc] at hFinish
    cases hFinish
    refine ⟨?_, h.ret hPc hDone, fun {q r'} hq => ?_, h.lock_move (by rw [hPc]; rfl) (.inr ⟨rfl, rfl⟩)⟩
    · rw [VSys.chain_setPc]
      exact h.desc.give (t := t) (by rw [VSys.chain, hPc]; rfl) (s.d.freed_free t)
    · rw [VSys.req_setPc] at hq
      exact h.owner_move (.inr rfl) hq
  | take hSome => exact ⟨h.desc, h.take hSome, h.owner, h.lock⟩
  | complete hDev hStatus => exact ⟨h.desc, (h.complete hDev hStatus).1, h.owner, h.lock⟩
  | intrBegin hLock | intrEnd hLock =>
    refine ⟨h.desc, h.req.congr rfl (fun _ _ _ => rfl) rfl rfl rfl rfl, h.owner, fun q => ?_⟩
    have hOut := h.lock q
    rw [hLock] at hOut
    simpa using hOut
  | intr hSome hBuf => exact ⟨h.desc, h.intr hSome hBuf, h.owner, h.lock⟩

theorem vInv_run (h : virtioLts.Run tr s) : VInv s := by
  refine h.invariant (I := fun _ s => VInv s) ?_ fun _ _ _ _ _ ih hStep => (VSys.step_ok hStep).inv ih
  rintro s rfl
  exact vInv_initial

/-! ## Histories -/

/-- The heads that the device has completed, in order. -/
def completed (tr : List VAct) : List Nat :=
  tr.filterMap fun
    | .complete h => some h
    | _ => none

/-- The entries of the used ring that `virtio_disk_intr` has consumed, in order. -/
def consumed (tr : List VAct) : List Nat :=
  tr.filterMap fun
    | .intr id => some id
    | _ => none

/-- How an action changes the last request of process `p`. -/
def requestStep (p : Nat) (x : Option (Nat × Bool)) : VAct → Option (Nat × Bool)
  | .submit q h => if q = p then some (h, false) else x
  | .complete h => x.map fun (h', done) => (h', done || decide (h' = h))
  | _ => x

/-- The last request of process `p`: its head, and whether the device has completed it. -/
def request (p : Nat) (tr : List VAct) : Option (Nat × Bool) := tr.foldl (requestStep p) none

theorem request_append (p : Nat) (tr : List VAct) (a : VAct) :
    request p (tr ++ [a]) = requestStep p (request p tr) a := by
  simp [request]

theorem completed_append (tr : List VAct) (a : VAct) :
    completed (tr ++ [a]) = completed tr ++ completed [a] := List.filterMap_append

theorem consumed_append (tr : List VAct) (a : VAct) :
    consumed (tr ++ [a]) = consumed tr ++ consumed [a] := List.filterMap_append

structure VHist (tr : List VAct) (s : VSys) : Prop where
  inv      : VInv s
  consumed : completed tr = consumed tr ++ s.d.used.contents NUM
  request  : ∀ {p r t}, s.sub p = some (r, t) →
    request p tr = some (t.fst, decide (t.fst ∉ s.d.avail.contents NUM ++ s.dev))

/-- An action that is neither seen in the histories nor touches the rings. -/
theorem VHist.quiet (h : VHist tr s) (hInv : VInv s')
    (hReq : ∀ p x, requestStep p x a = x) (hCompleted : completed [a] = [])
    (hConsumed : Xv6.consumed [a] = []) (hAvail : s'.d.avail = s.d.avail)
    (hUsed : s'.d.used = s.d.used) (hDev : s'.dev = s.dev)
    (hSub : ∀ {p x}, s'.sub p = some x → s.sub p = some x) : VHist (tr ++ [a]) s' := by
  refine ⟨hInv, ?_, fun hp => ?_⟩
  · rw [completed_append, consumed_append, hCompleted, hConsumed, hUsed, List.append_nil, List.append_nil, h.consumed]
  · rw [request_append, hReq, hAvail, hDev, h.request (hSub hp)]

theorem mem_erase_right {l l' : List Nat} {y : Nat} (h : (l ++ l').Nodup) (hx : x ∈ l') :
    y ∈ l ++ l'.erase x ↔ y ∈ l ++ l' ∧ y ≠ x := by
  obtain ⟨-, hRight, hDisj⟩ := List.nodup_append.mp h
  rw [List.mem_append, List.mem_append, hRight.mem_erase_iff]
  constructor
  · rintro (hy | ⟨hne, hy⟩)
    · exact ⟨.inl hy, hDisj y hy x hx⟩
    · exact ⟨.inr hy, hne⟩
  · rintro ⟨hy | hy, hne⟩
    · exact .inl hy
    · exact .inr ⟨hne, hy⟩

theorem upd_sub {p q : Nat} {x : VReq × VChain}
    (hc : c.sub = s.sub p ∨ c.sub = none) (h : upd s.sub p c.sub q = some x) : s.sub q = some x := by
  by_cases hqp : q = p
  · rw [hqp, upd_self] at h
    rcases hc with hc | hc
    · rw [hqp, ← hc, h]
    · rw [hc] at h
      cases h
  · rwa [upd_of_ne hqp] at h

theorem VMove.hist (hMove : VMove s a s')
    (h : VHist tr s) : VHist (tr ++ [a]) s' := by
  have hInv := hMove.inv h.inv
  cases hMove with
  | acquiresleep | releasesleep | intrBegin | intrEnd =>
    exact h.quiet hInv (fun _ _ => rfl) rfl rfl rfl rfl rfl id
  | @call p r hPc =>
    refine h.quiet hInv (fun _ _ => rfl) rfl rfl rfl rfl rfl fun hq => ?_
    rw [VSys.sub_setPc] at hq
    exact upd_sub (.inr rfl) hq
  | @acquire p c hLock hReq hChain hSub hIn =>
    refine h.quiet hInv (fun _ _ => rfl) rfl rfl rfl rfl rfl fun hq => ?_
    rw [VSys.sub_setPc] at hq
    exact upd_sub (s := s) (.inl hSub) hq
  | @alloc p r t hPc =>
    refine h.quiet hInv (fun _ _ => rfl) rfl rfl rfl rfl rfl fun hq => ?_
    rw [VSys.sub_setPc] at hq
    exact upd_sub (s := s) (.inr rfl) hq
  | @allocFail p r d hPc hSame =>
    refine h.quiet hInv (fun _ _ => rfl) rfl rfl ?_ ?_ rfl fun hq => ?_
    · show d.avail = s.d.avail
      rw [hSame.eq]
    · show d.used = s.d.used
      rw [hSame.eq]
    · rw [VSys.sub_setPc] at hq
      exact upd_sub (s := s) (.inr rfl) hq
  | @sleep p r t hPc =>
    refine h.quiet hInv (fun _ _ => rfl) rfl rfl rfl rfl rfl fun hq => ?_
    rw [VSys.sub_setPc] at hq
    exact upd_sub (s := s) (.inl (by rw [VSys.sub, hPc]; rfl)) hq
  | @ret p r t d hPc hDone hFinish =>
    rw [h.inv.finish hPc] at hFinish
    cases hFinish
    refine h.quiet hInv (fun _ _ => rfl) rfl rfl rfl rfl rfl fun hq => ?_
    rw [VSys.sub_setPc] at hq
    exact upd_sub (s := s) (.inr rfl) hq
  | @submit p r t hPc =>
    have hAvail : (s.d.submit r t).avail.contents NUM = s.d.avail.contents NUM ++ [t.fst] :=
      s.d.avail.contents_push t.fst numDvd (h.inv.avail_room hPc) (by decide)
    refine ⟨hInv, ?_, fun {q r' t'} hq => ?_⟩
    · have hUsed : (s.d.submit r t).used = s.d.used := rfl
      rw [completed_append, consumed_append]
      exact (congrArg (· ++ []) h.consumed).trans (by simp [VSys.setPc, hUsed, Xv6.consumed])
    · rw [VSys.sub_setPc] at hq
      show _ = some (t'.fst, decide (t'.fst ∉ (s.d.submit r t).avail.contents NUM ++ s.dev))
      rw [request_append, requestStep, hAvail]
      rcases upd_some_eq_some.mp hq with ⟨rfl, hEq⟩ | ⟨hqp, hq⟩
      · cases hEq
        simp
      · -- another request has another head
        have hne : t'.fst ≠ t.fst := fun hEq => hqp <| h.inv.eq_of_head hq
          (show s.chain p = some t by rw [VSys.chain, hPc]; rfl) (hEq ▸ fst_mem_idx t)
        rw [if_neg fun hEq => hqp hEq.symm, h.request hq]
        simp [hne]
  | take hSome =>
    have hMem : ∀ x, x ∈ s.d.avail.pop.contents NUM ++ s.d.avail.head NUM :: s.dev ↔
        x ∈ s.d.avail.contents NUM ++ s.dev := fun x => by
      rw [VInv.avail_cons hSome]
      exact List.perm_middle.mem_iff
    refine ⟨hInv, ?_, fun hp => ?_⟩
    · rw [completed_append, consumed_append]
      exact (congrArg (· ++ []) h.consumed).trans (by simp [Xv6.consumed])
    · refine (request_append ..).trans ((h.request hp).trans ?_)
      simp only [hMem]
  | @complete x i hDev hStatus =>
    obtain ⟨-, hRoom, -⟩ := h.inv.complete hDev hStatus
    have hNodup := (List.nodup_append.mp h.inv.req.nodup).1
    refine ⟨hInv, ?_, fun {p r t} hp => ?_⟩
    · rw [completed_append, consumed_append, h.consumed]
      show _ = Xv6.consumed tr ++ [] ++ (s.d.used.push NUM x).contents NUM
      rw [s.d.used.contents_push x numDvd hRoom (by decide), List.append_nil, List.append_assoc]
      rfl
    · rw [request_append, requestStep, h.request hp]
      simp only [Option.map_some, Option.some.injEq, Prod.mk.injEq, true_and]
      simp only [mem_erase_right hNodup hDev]
      by_cases hEq : t.fst = x <;> simp [hEq]
  | @intr b hSome hBuf =>
    refine ⟨hInv, ?_, fun hp => ?_⟩
    · rw [completed_append, consumed_append, h.consumed, VInv.used_cons hSome]
      simp [completed, Xv6.consumed]
    · exact (request_append ..).trans (h.request hp)

theorem vHist_run (h : virtioLts.Run tr s) : VHist tr s := by
  refine h.invariant ?_ fun _ _ _ _ _ ih hStep => (VSys.step_ok hStep).hist ih
  rintro s rfl
  exact ⟨vInv_initial, rfl, nofun⟩

/-- No step fails. -/
theorem VInv.no_panic (h : VInv s) (a : VAct) (e : VPanic) : s.step a ≠ some (.error e) := by
  intro hStep
  cases a with
  | acquiresleep | releasesleep | call | intrBegin | intrEnd | take =>
    rw [VSys.step] at hStep
    split at hStep <;> cases hStep
  | acquire | submit | sleep | complete =>
    rw [VSys.step] at hStep
    split at hStep
    · split at hStep <;> cases hStep
    · cases hStep
  | alloc p =>
    rw [VSys.step] at hStep
    split at hStep
    · rcases s.d.alloc3_desc_spec with ⟨t, -, -, hAlloc⟩ | ⟨d, hAlloc, -⟩
      · rw [hAlloc] at hStep
        cases hStep
      · rw [hAlloc] at hStep
        cases hStep
    · cases hStep
  | ret p =>
    rw [VSys.step] at hStep
    split at hStep
    · split at hStep
      · cases hStep
      · rw [h.finish ‹_›] at hStep
        cases hStep
    · cases hStep
  | intr id =>
    rw [VSys.step] at hStep
    split at hStep
    · rename_i hGuard
      obtain ⟨-, hSome, rfl⟩ := hGuard
      have hMem : s.d.used.head NUM ∈ s.d.used.contents NUM :=
        used_cons hSome ▸ List.mem_cons_self
      rw [if_neg (not_not.mpr (h.req.status _ hMem))] at hStep
      obtain ⟨p, r, t, -, hHead, hChained⟩ := h.of_queued (List.mem_append_right _ hMem)
      rw [← hHead, hChained.buf] at hStep
      cases hStep
    · cases hStep

/-- The descriptors of a process in `virtio_disk_rw`. -/
def VSys.idx (s : VSys) (p : Nat) : List Nat := ((s.chain p).map VChain.idx).getD []

theorem VSys.mem_idx {p i : Nat} : i ∈ s.idx p ↔ ∃ t, s.chain p = some t ∧ i ∈ t.idx := by
  unfold idx
  cases s.chain p <;> simp

/-- Along every run: each descriptor is free or one of the three of exactly one request, and the
descriptors of requests are pairwise different; an `alloc3_desc` that fails leaves `free` as it was;
`virtio_disk_rw` returns only when the device has completed the last request of the process; the
handler has consumed the completions in order, each of them once, up to those in the used ring,
whose `info[id].b` is not null, and all of them when it ends; and nothing panics. -/
theorem virtio_protocol {tr : List VAct} {s : VSys} (hRun : virtioLts.Run tr s) :
    (∀ i < NUM, s.d.free i = true ∧ (∀ p, i ∉ s.idx p) ∨ s.d.free i = false ∧ ∃! p, i ∈ s.idx p) ∧
    (∀ p, s.idx p = [] ∨ (s.idx p).length = 3 ∧ (s.idx p).Nodup ∧ ∀ i ∈ s.idx p, i < NUM) ∧
    (∀ p q, p ≠ q → (s.idx p).Disjoint (s.idx q)) ∧
    (∀ p r s', virtioLts.step s (.alloc p) = some (.ok s') → s'.pc p = .noDesc r →
      s'.d.free = s.d.free) ∧
    (∀ p s', virtioLts.step s (.ret p) = some (.ok s') → ∃ h, request p tr = some (h, true)) ∧
    completed tr = consumed tr ++ s.d.used.contents NUM ∧
    (∀ id ∈ s.d.used.contents NUM, (s.d.info id).b ≠ none) ∧
    (∀ s', virtioLts.step s .intrEnd = some (.ok s') → completed tr = consumed tr) ∧
    ∀ a e, virtioLts.step s a ≠ some (.error e) := by
  obtain ⟨hInv, hConsumed, hRequest⟩ := vHist_run hRun
  refine ⟨fun i hi => ?_, fun p => ?_, fun p q hne i hp hq => ?_, fun p r s' hStep hPc => ?_,
    fun p s' hStep => ?_, hConsumed, fun id hid => ?_, fun s' hStep => ?_, hInv.no_panic⟩
  · cases hFree : s.d.free i with
    | true =>
      refine .inl ⟨rfl, fun p hp => ?_⟩
      obtain ⟨t, ht, hMem⟩ := VSys.mem_idx.mp hp
      rw [(hInv.desc.not_free ht i hMem).2] at hFree
      cases hFree
    | false =>
      obtain ⟨p, t, ht, hMem⟩ := (hInv.desc.taken hi).mp hFree
      refine .inr ⟨rfl, p, VSys.mem_idx.mpr ⟨t, ht, hMem⟩, fun q hq => ?_⟩
      obtain ⟨u, hu, hMem'⟩ := VSys.mem_idx.mp hq
      exact hInv.desc.unique hu ht hMem' hMem
  · unfold VSys.idx
    cases ht : s.chain p with
    | none => exact .inl rfl
    | some t => exact .inr ⟨rfl, hInv.desc.nodup ht, hInv.desc.range ht⟩
  · obtain ⟨t, ht, hMem⟩ := VSys.mem_idx.mp hp
    obtain ⟨u, hu, hMem'⟩ := VSys.mem_idx.mp hq
    exact hne (hInv.desc.unique ht hu hMem hMem')
  · cases (VSys.step_ok hStep : VMove s (.alloc p) s') with
    | @alloc _ r' t =>
      have hFormat : VPc.format r' t = .noDesc r := (upd_self s.pc p _).symm.trans hPc
      cases hFormat
    | allocFail _ hSame => exact (congrArg VDisk.free hSame.eq).trans rfl
  · cases (VSys.step_ok hStep : VMove s (.ret p) s') with
    | @ret p r t d hPc hDone =>
      have hp : s.sub p = some (r, t) := by rw [VSys.sub, hPc]; rfl
      have hGone : t.fst ∉ s.d.avail.contents NUM ++ s.dev := fun hMem =>
        hInv.notMem_queue hp hDone (List.mem_append_left _ hMem)
      exact ⟨t.fst, by rw [hRequest hp, decide_eq_true hGone]⟩
  · obtain ⟨p, r, t, -, rfl, hChained⟩ := hInv.of_queued (List.mem_append_right _ hid)
    rw [hChained.buf]
    exact Option.some_ne_none _
  · cases (VSys.step_ok hStep : VMove s .intrEnd s') with
    | intrEnd _ hNone =>
      have hEmpty : s.d.used.contents NUM = [] :=
        List.eq_nil_of_length_eq_zero (by rw [RingBuf.length_contents, ← RingBuf.isEmpty_iff, hNone])
      rw [hConsumed, hEmpty, List.append_nil]

/-- Two processes submit; the device completes the second request first. -/
def virtioOutOfOrder : List VAct :=
  [.acquiresleep 0 5, .acquiresleep 1 6, .call 0 ⟨5, 40, false⟩, .call 1 ⟨6, 41, true⟩,
    .acquire 0, .alloc 0, .submit 0 0, .sleep 0, .acquire 1, .alloc 1, .submit 1 3, .sleep 1,
    .take, .take, .complete 3, .intrBegin, .intr 3, .intrEnd, .acquire 1]

theorem virtio_protocol_out_of_order :
    ∃ s s', virtioLts.Run virtioOutOfOrder s ∧ virtioLts.step s (.ret 1) = some (.ok s') ∧
      (∃ h, request 1 virtioOutOfOrder = some (h, true)) ∧
      completed virtioOutOfOrder = consumed virtioOutOfOrder ++ s.d.used.contents NUM := by
  obtain ⟨s, s', hExec, hStep⟩ : ∃ s s', virtioLts.exec .initial virtioOutOfOrder = some s ∧
      virtioLts.step s (.ret 1) = some (.ok s') := ⟨_, _, rfl, rfl⟩
  have hRun := Lts.run_of_exec (Lts.Run.start (M := virtioLts) rfl) hExec
  obtain ⟨-, -, -, -, hRet, hConsumed, -⟩ := virtio_protocol hRun
  exact ⟨s, s', hRun, hStep, hRet 1 s' hStep, hConsumed⟩

end Xv6
