import Xv6.Fs.Path

/-!
# xv6 — what the naming calls do

`link`, `unlink` and `create` as changes of the inodes. A call that fails has changed nothing (`Failed`). One that
succeeds has made one of three changes (`Change`): an inode got a name, lost one, or was made with a name. In
both cases inodes without a name may have been freed with the last pointer to them, before or after.
-/

namespace Xv6.Fs

open ByteBuf Hoare Owner

variable {E : Panic → Prop} {c c' : Core} {sb : Superblock} {S : Set Nat} {D D' : Nat → Dinode}
  {N N' : Nat → Node} {R K : Multiset Ref} {L : Finset Nat} {r : Ref} {P : Nat → Prop}

/-! ## Link counts -/

/-- The inode with another link count. -/
def Node.links (n : Node) (v : BitVec 16) : Node := { n with nlink := v }

theorem Dirs.links (h : Dirs sb N) (i : Nat) (v : BitVec 16) : Dirs sb (upd N i ((N i).links v)) where
  holes j hType := by
    by_cases hj : j = i
    · rw [hj, upd_self] at hType ⊢
      exact h.holes i hType
    · rw [upd_of_ne hj] at hType ⊢
      exact h.holes j hType
  range j hType := by
    by_cases hj : j = i
    · rw [hj, upd_self] at hType ⊢
      exact h.range i hType
    · rw [upd_of_ne hj] at hType ⊢
      exact h.range j hType

/-- Only an inode that is pointed to changes its links. -/
theorem Bound.upd (h : Bound K N) (n : Node) : Bound (r ::ₘ K) (upd N r.inum n) := fun i hi => by
  by_cases hEq : i = r.inum
  · exact ⟨r, Multiset.mem_cons_self r K, hEq.symm⟩
  · rw [upd_of_ne hEq] at hi
    exact h.mono (Multiset.subset_cons K r) i hi

theorem Firm.links (h : Firm K P N) (v : BitVec 16) :
    Firm (r ::ₘ K) P (upd N r.inum ((N r.inum).links v)) where
  bound := h.bound.upd _
  root := h.root
  typed i hi := by
    by_cases hEq : i = r.inum
    · rw [hEq, upd_self]
      exact h.typed _ (hEq ▸ hi)
    · rw [upd_of_ne hEq]
      exact h.typed i hi
  whole i hi hType := by
    by_cases hEq : i = r.inum
    · rw [hEq, upd_self] at hType ⊢
      exact h.whole _ (hEq ▸ hi) hType
    · rw [upd_of_ne hEq] at hType ⊢
      exact h.whole i hi hType
  next i hi hType := by
    by_cases hEq : i = r.inum
    · rw [hEq, upd_self] at hType ⊢
      exact h.next _ (hEq ▸ hi) hType
    · rw [upd_of_ne hEq] at hType ⊢
      exact h.next i hi hType

/-- `ip->nlink = …; iupdate(ip)` -/
theorem links_at {f : Dinode → Dinode} {v : BitVec 16} (h : At sb S D N R L c) (hr : r ∈ R) (hL : r.slot ∈ L)
    (hf : ∀ di : Dinode, di.nlink = (N r.inum).nlink → f di = { di with nlink := v }) :
    wp E (do
        setDin r.slot f
        iupdate r.slot)
      (fun _ c' => At sb S (upd D r.inum { D r.inum with nlink := v }) (upd N r.inum ((N r.inum).links v)) R L c')
      c := by
  obtain ⟨w, hRep, -, hIn⟩ := h.locked hr hL
  have hType := hRep.table.typed _ hIn
  have hNode := hRep.nodes _ (hRep.inum_lt hr)
  have hFields : { D r.inum with major := (N r.inum).major, minor := (N r.inum).minor, nlink := v } =
      { D r.inum with nlink := v } := by
    rw [show (N r.inum).major = _ from hNode.major hType, show (N r.inum).minor = _ from hNode.minor hType]
  rw [← hFields]
  refine update_at h hr hL fun di hMajor hMinor hLink => ?_
  rw [hf di hLink, ← hMajor, ← hMinor]

/-- The rest of a program after a change of an inode. -/
theorem wp_change {α : Type} {k : Nat} {f : Dinode → Dinode} {rest : M α} {Q : α → Core → Prop}
    (h : wp E (do
        setDin k f
        iupdate k)
      (fun _ c' => wp E rest Q c') c) :
    wp E (do
      setDin k f
      iupdate k
      rest) Q c := by
  rw [wp_bind] at h ⊢
  exact h.mono fun _ _ h => wp_bind.mpr h

/-! ## One locked inode -/

/-- The call failed and nothing changed. -/
def Failed (sb : Superblock) (S : Set Nat) (K : Multiset Ref) (D : Nat → Dinode) (N : Nat → Node) (c' : Core) :
    Prop :=
  ∃ D' N', Lapse K D N D' N' ∧ At sb S D' N' K ∅ c'

theorem lock_at (h : At sb S D N R ∅ c) (hr : r ∈ R) (hNoType : (N r.inum).type = 0 → E .ilockNoType) :
    wp E (ilock r.slot) (fun _ c' => At sb S D N R {r.slot} c') c :=
  (ilock_at (h.mono Set.sdiff_subset) hr (fun hLock => absurd hLock (Finset.notMem_empty _)) hNoType).mono
    fun _ _ h' => h'.2

theorem unlock_at (h : At sb S D N R {r.slot} c) (hr : r ∈ R) :
    wp E (iunlock r.slot) (fun _ c' => At sb S D N R ∅ c') c := by
  refine (iunlock_at h hr (Finset.mem_singleton_self _)).mono fun _ c' h' => ?_
  rwa [Finset.erase_singleton] at h'

theorem unlockput_at (h : At sb S D N (r ::ₘ R) {r.slot} c) :
    wp E (iunlockput r.slot) (fun _ c' => Failed sb S R D N c') c := by
  refine (iunlockput_at h (Finset.mem_singleton_self _)).mono ?_
  rintro _ c' ⟨D', N', hLapse, h'⟩
  rw [Finset.erase_singleton] at h'
  exact ⟨D', N', hLapse, h'⟩

theorem Failed.lapse {D₁ : Nat → Dinode} {N₁ : Nat → Node} (h : Failed sb S K D₁ N₁ c')
    (hLapse : Lapse K D N D₁ N₁) : Failed sb S K D N c' :=
  h.imp fun _ h => h.imp fun _ h => ⟨hLapse.trans h.1, h.2⟩

/-! ## The changes -/

/-- A new inode; a directory has its first two entries. -/
def Node.made (type major minor : BitVec 16) (d i : Nat) (u₁ u₂ : Finset Nat) : Node :=
  let n := (Node.fresh type).setFields major minor 1
  if type = T_DIR then
    let n₁ := n.setEnt 0 (entBytes dot i) u₁
    n₁.setEnt (vacant n₁) (entBytes dotdot d) u₂
  else n

/-- What a naming call does to the inodes; `G` holds of the inodes it found. -/
inductive Change (sb : Superblock) (G : Nat → Prop) (N : Nat → Node) : (Nat → Node) → Prop
  | link {d i : Nat} {name : List UInt8} (u : Finset Nat) (hDir : (N d).type = T_DIR)
      (hFile : (N i).type ≠ T_DIR) (hTyped : (N i).type ≠ 0) (hi : 1 ≤ i ∧ i < sb.ninodes)
      (hNew : lookup (N d) name = none) (hRoom : ¬ Refused (N d).size (16 * vacant (N d)) 16)
      (hd : G d) (hGood : G i) :
      Change sb G N (upd (upd N i ((N i).links ((N i).nlink + 1))) d
        ((N d).setEnt (vacant (N d)) (entBytes name i) u))
  | unlink {d i j : Nat} {name : List UInt8} (u : Finset Nat) (hDir : (N d).type = T_DIR)
      (hTyped : (N i).type ≠ 0) (hNe : i ≠ d) (hi : (ent (N d) j).inum = i)
      (hFound : lookup (N d) name = some j) (hDots : key name ≠ key dot ∧ key name ≠ key dotdot)
      (hLinks : 1 ≤ (N i).nlink.toInt)
      (hEmpty : (N i).type = T_DIR → find (N i) (fun de => de.inum ≠ 0) 2 = none) (hd : G d) (hGood : G i) :
      Change sb G N (upd (upd N d (((N d).setEnt j (List.replicate 16 0) u).links
        (if (N i).type = T_DIR then (N d).nlink - 1 else (N d).nlink))) i ((N i).links ((N i).nlink - 1)))
  | create {d i : Nat} {name : List UInt8} {type major minor : BitVec 16} (u u₁ u₂ : Finset Nat)
      (hDir : (N d).type = T_DIR) (hType : type ≠ 0) (hFree : N i = Node.free) (hi : 1 ≤ i ∧ i < sb.ninodes)
      (hNew : lookup (N d) name = none) (hRoom : ¬ Refused (N d).size (16 * vacant (N d)) 16) (hd : G d) :
      Change sb G N (upd (upd N i (Node.made type major minor d i u₁ u₂)) d
        (((N d).links (if type = T_DIR then (N d).nlink + 1 else (N d).nlink)).setEnt (vacant (N d))
          (entBytes name i) u))

/-- The call made a change. -/
def Done (sb : Superblock) (S : Set Nat) (G : Nat → Prop) (K : Multiset Ref) (N : Nat → Node) (c' : Core) :
    Prop :=
  ∃ N₁ N₂ D' N', Reaped K N N₁ ∧ Change sb G N₁ N₂ ∧ Reaped K N₂ N' ∧ At sb S D' N' K ∅ c'

/-- A call that returned -1 or 0. -/
def Named (E : Panic → Prop) (sb : Superblock) (S : Set Nat) (K : Multiset Ref) (P : Nat → Prop)
    (D : Nat → Dinode) (N : Nat → Node) (ret : Int) (c' : Core) : Prop :=
  ret = -1 ∧ Failed sb S K D N c' ∨ ret = 0 ∧ Done sb S (fun i => Ok E (P i)) K N c'

/-- What a call of a process starts from whose current directory is `r`. -/
structure Ready (E : Panic → Prop) (sb : Superblock) (S : Set Nat) (K : Multiset Ref) (P : Nat → Prop)
    (D : Nat → Dinode) (N : Nat → Node) (r : Ref) (c : Core) : Prop where
  lax  : Lax E
  root : ROOTINO < sb.ninodes
  dirs : Dirs sb N
  firm : Ok E (Firm K P N)
  cwd  : r ∈ K
  good : Ok E (P r.inum)
  here : At sb S D N K ∅ c

/-- Every directory has room for an entry. -/
def Room (P : Nat → Prop) (N : Nat → Node) : Prop :=
  ∀ i, P i → (N i).type = T_DIR → ¬ Refused (N i).size (16 * vacant (N i)) 16

/-- A call that found an inode, and holds it locked. -/
def Got (E : Panic → Prop) (sb : Superblock) (S : Set Nat) (K : Multiset Ref) (P : Nat → Prop)
    (D : Nat → Dinode) (N : Nat → Node) (k i : Nat) (N' : Nat → Node) (c' : Core) : Prop :=
  ∃ D', At sb S D' N' (⟨k, i⟩ ::ₘ K) {k} c' ∧ Lapse K D N D' N' ∧ Ok E (P i)

/-- A call that made an inode, and holds it locked. -/
def Made (E : Panic → Prop) (sb : Superblock) (S : Set Nat) (K : Multiset Ref) (P : Nat → Prop)
    (N : Nat → Node) (k i : Nat) (N' : Nat → Node) (c' : Core) : Prop :=
  ∃ D' N₁ N₂, At sb S D' N' (⟨k, i⟩ ::ₘ K) {k} c' ∧ Reaped K N N₁ ∧ Change sb (fun i => Ok E (P i)) N₁ N₂ ∧
    Reaped (⟨k, i⟩ ::ₘ K) N₂ N'

theorem Room.links (h : Room P N) (i : Nat) (v : BitVec 16) : Room P (upd N i ((N i).links v)) := by
  intro j hj hType
  by_cases hEq : j = i
  · rw [hEq, upd_self] at hType ⊢
    exact h i (hEq ▸ hj) hType
  · rw [upd_of_ne hEq] at hType ⊢
    exact h j hj hType

theorem Ok.room (h : Ok E (Room P N)) (hFirm : Ok E (Firm K P N)) (hReaped : Reaped K N N') : Ok E (Room P N') :=
  (hFirm.and h).imp fun hF => hReaped.eq hF.1.bound ▸ hF.2

theorem Ready.nameiparent (h : Ready E sb S K P D N r c) (path : List UInt8) :
    wp E (nameiparent r.slot path) (fun ret c' => Found E sb S K P true D N ret.1 c') c :=
  namex_at h.lax true h.dirs h.firm h.here h.cwd h.good h.root

theorem Ready.namei (h : Ready E sb S K P D N r c) (path : List UInt8) :
    wp E (namei r.slot path) (fun ret c' => Found E sb S K P false D N ret c') c := by
  rw [Fs.namei, wp_bind]
  exact (namex_at h.lax false h.dirs h.firm h.here h.cwd h.good h.root).mono fun _ _ h' => wp_pure.mpr h'

/-! ## link -/

/-- The end of a `link` that fails, from `bad:` on: the link count is what it was before. -/
theorem link_bad {D₁ D₂ : Nat → Dinode} {N₁ N₂ : Nat → Node} {v : BitVec 16}
    (hOld : (D r.inum).nlink = v ∧ (N r.inum).nlink = v) (hTyped : (N r.inum).type ≠ 0)
    (hD : D₁ = upd D r.inum { D r.inum with nlink := v + 1 })
    (hN : N₁ = upd N r.inum ((N r.inum).links (v + 1))) (hLapse : Lapse (r ::ₘ K) D₁ N₁ D₂ N₂)
    (h : At sb S D₂ N₂ (r ::ₘ K) ∅ c) :
    wp E (do
        ilock r.slot
        setDin r.slot fun di => { di with nlink := di.nlink - 1 }
        iupdate r.slot
        iunlockput r.slot
        return (-1 : Int))
      (fun ret c' => ret = -1 ∧ Failed sb S K D N c') c := by
  have hr : r ∈ r ::ₘ K := Multiset.mem_cons_self r K
  have hNow : N₂ r.inum = (N r.inum).links (v + 1) := by
    rw [hLapse.reaped.keeps hr, hN, upd_self]
  rw [wp_bind]
  refine (lock_at h hr fun h0 => ?_).mono fun _ c₁ h₁ => ?_
  · rw [hNow] at h0
    exact absurd h0 hTyped
  refine wp_change ((links_at (v := v) h₁ hr (Finset.mem_singleton_self _) fun di hLink => ?_).mono
    fun _ c₂ h₂ => ?_)
  · rw [hLink, hNow, show ((N r.inum).links (v + 1)).nlink - 1 = v from BitVec.add_sub_cancel v 1]
  · have hUndone : (N₂ r.inum).links v = N r.inum := by
      rw [hNow, ← hOld.2]
      rfl
    rw [hUndone] at h₂
    rw [wp_bind]
    refine (unlockput_at h₂).mono fun _ c' h' => wp_pure.mpr ⟨rfl, h'.lapse ⟨?_, fun hBound => ?_⟩⟩
    · have hUpd := hLapse.reaped.upd (N r.inum)
      rwa [hN, upd_upd, upd_eta] at hUpd
    · rw [hLapse.same (hN ▸ hBound.upd _), hD, upd_self, upd_upd, ← hOld.1]
      exact upd_eta D r.inum

theorem link_at (h : Ready E sb S K P D N r c) (hRoom : Ok E (Room P N)) (old new : List UInt8) :
    wp E (link r.slot old new) (Named E sb S K P D N) c := by
  rw [link, wp_bind]
  refine (h.namei old).mono ?_
  rintro _ c₁ ⟨D₁, N₁, hLapse₁, ⟨rfl, h₁⟩ | ⟨k, i, rfl, h₁, -, hGood⟩⟩
  · exact wp_pure.mpr (.inl ⟨rfl, D₁, N₁, hLapse₁, h₁⟩)
  have hip : (⟨k, i⟩ : Ref) ∈ ⟨k, i⟩ ::ₘ K := Multiset.mem_cons_self _ _
  have hFirm₁ := h.firm.reaped hLapse₁.reaped
  have hDirs₁ := h.dirs.reaped hLapse₁.reaped
  show wp E (do ilock k; _) _ c₁
  rw [wp_bind]
  refine (lock_at (r := ⟨k, i⟩) h₁ hip fun h0 => (hFirm₁.and hGood).error fun hF => hF.1.typed _ hF.2 h0).mono
    fun _ c₂ h₂ => ?_
  have hLocked : k ∈ ({k} : Finset Nat) := Finset.mem_singleton_self k
  rw [wp_bind, wp_inode, h₂.type hip hLocked, wp_ite]
  constructor
  · intro _
    rw [wp_bind]
    exact (unlockput_at (r := ⟨k, i⟩) h₂).mono fun _ c' h' => wp_pure.mpr (.inl ⟨rfl, h'.lapse hLapse₁⟩)
  intro hFile
  have hTyped : (N₁ i).type ≠ 0 := h₂.typed hip hLocked
  have hOld : (D₁ i).nlink = (N₁ i).nlink := by
    obtain ⟨v, hRep, -, hIn⟩ := h₂.locked hip hLocked
    exact ((hRep.nodes i (hRep.inum_lt hip)).nlink (hRep.table.typed _ hIn)).symm
  -- one more name
  refine wp_change ((links_at (r := ⟨k, i⟩) (v := (N₁ i).nlink + 1) h₂ hip hLocked fun di hLink => ?_).mono
    fun _ c₃ (h₃ : At sb S (upd D₁ i { D₁ i with nlink := (N₁ i).nlink + 1 })
      (upd N₁ i ((N₁ i).links ((N₁ i).nlink + 1))) (⟨k, i⟩ ::ₘ K) {k} c₃) => ?_)
  · rw [hLink]
  have hDirs₂ := hDirs₁.links i ((N₁ i).nlink + 1)
  have hFirm₂ : Ok E (Firm (⟨k, i⟩ ::ₘ K) P (upd N₁ i ((N₁ i).links ((N₁ i).nlink + 1)))) :=
    hFirm₁.imp fun hF => hF.links (r := ⟨k, i⟩) _
  have hRoom₂ := ((hRoom.room h.firm hLapse₁.reaped).imp fun hR => hR.links i ((N₁ i).nlink + 1))
  generalize hD₂ : upd D₁ i { D₁ i with nlink := (N₁ i).nlink + 1 } = D₂ at h₃
  generalize hN₂ : upd N₁ i ((N₁ i).links ((N₁ i).nlink + 1)) = N₂ at h₃ hDirs₂ hFirm₂ hRoom₂
  rw [wp_bind]
  refine (unlock_at (r := ⟨k, i⟩) h₃ hip).mono fun _ c₄ h₄ => ?_
  have hReady : Ready E sb S (⟨k, i⟩ ::ₘ K) P D₂ N₂ r c₄ := { h with
    dirs := hDirs₂
    firm := hFirm₂
    cwd := Multiset.mem_cons_of_mem h.cwd
    here := h₄ }
  have hBad : ∀ {D₄ N₄ c₆}, Lapse (⟨k, i⟩ ::ₘ K) D₂ N₂ D₄ N₄ → At sb S D₄ N₄ (⟨k, i⟩ ::ₘ K) ∅ c₆ →
      wp E (do
        ilock k
        setDin k fun di => { di with nlink := di.nlink - 1 }
        iupdate k
        iunlockput k
        return (-1 : Int)) (Named E sb S K P D N) c₆ := fun hLapse h₆ =>
    (link_bad (r := ⟨k, i⟩) ⟨hOld, rfl⟩ hTyped hD₂.symm hN₂.symm hLapse h₆).mono
      fun _ _ h' => .inl ⟨h'.1, h'.2.lapse hLapse₁⟩
  rw [wp_bind]
  refine (hReady.nameiparent new).mono ?_
  rintro ⟨_, name⟩ c₅ ⟨D₃, N₃, hLapse₂, ⟨rfl, h₅⟩ | ⟨k', d, rfl, h₅, hDir, hGood'⟩⟩
  · exact hBad hLapse₂ h₅
  specialize hDir rfl
  have hFirm₃ := hFirm₂.reaped hLapse₂.reaped
  have hDirs₃ := hDirs₂.reaped hLapse₂.reaped
  have hdp : (⟨k', d⟩ : Ref) ∈ ⟨k', d⟩ ::ₘ ⟨k, i⟩ ::ₘ K := Multiset.mem_cons_self _ _
  have hip' : (⟨k, i⟩ : Ref) ∈ ⟨k', d⟩ ::ₘ ⟨k, i⟩ ::ₘ K := Multiset.mem_cons_of_mem hip
  have hLocked' : k' ∈ ({k'} : Finset Nat) := Finset.mem_singleton_self k'
  have hTyped' : T_DIR ≠ 0 := by decide
  show wp E (do ilock k'; _) _ c₅
  rw [wp_bind]
  refine (lock_at (r := ⟨k', d⟩) h₅ hdp fun h0 => absurd (hDir.symm.trans h0) hTyped').mono fun _ c₆ h₆ => ?_
  rw [wp_bind, wp_inode, wp_bind, wp_inode, h₆.dev hdp, h₆.dev hip', if_neg (not_not.mpr rfl), wp_bind, wp_inode,
    h₆.inum hip', wp_bind]
  refine (dirlink_at (r := ⟨k', d⟩) h₆ hdp hLocked' hDir (hDirs₃.holes d hDir)
    (fun hOdd => ?_) (hDirs₃.lookup hDir) (fun _ => h.lax.inodes) (fun _ => h.lax.blocks) fun hFull => ?_).mono ?_
  · have hBoth := hFirm₃.and hGood'
    exact ⟨hBoth.error fun hF => hOdd (hF.1.whole d hF.2 hDir), hBoth.error fun hF => hOdd (hF.1.whole d hF.2 hDir)⟩
  · exact ((hRoom₂.room hFirm₂ hLapse₂.reaped).and hGood').error fun hR => hR.1 d hR.2 hDir hFull
  rintro _ c₇ (⟨-, rfl, D₄, N₄, hLapse₃, h₇⟩ | ⟨hNew, rfl, hFits, u, D₄, h₇⟩)
  · rw [if_neg Bool.false_ne_true, wp_bind]
    refine (unlockput_at (r := ⟨k', d⟩) h₇).mono ?_
    rintro _ c₈ ⟨D₅, N₅, hLapse₄, h₈⟩
    exact hBad ((hLapse₂.trans (hLapse₃.mono (Multiset.subset_cons _ _))).trans hLapse₄) h₈
  · rw [if_pos rfl, wp_bind]
    refine (unlockput_at (r := ⟨k', d⟩) h₇).mono ?_
    rintro _ c₈ ⟨D₅, N₅, hLapse₄, h₈⟩
    show wp E (do iput k; return (0 : Int)) _ c₈
    rw [wp_bind]
    refine (iput_at (r := ⟨k, i⟩) h₈ fun _ => Finset.notMem_empty _).mono ?_
    rintro _ c' ⟨D', N', hLapse₅, h'⟩
    refine wp_pure.mpr (.inr ⟨rfl, upd N₃ i (N₁ i), _, D', N', ?_, ?_,
      (hLapse₄.reaped.mono (Multiset.subset_cons _ _)).trans hLapse₅.reaped, h'⟩)
    · have hUpd := hLapse₂.reaped.upd (N₁ i)
      rw [← hN₂, upd_upd, upd_eta] at hUpd
      exact hLapse₁.reaped.trans hUpd
    · have hNow : N₃ i = (N₁ i).links ((N₁ i).nlink + 1) := by
        rw [hLapse₂.reaped.keeps (r := ⟨k, i⟩) hip, ← hN₂, upd_self]
      have hNe : d ≠ i := by
        rintro rfl
        rw [hNow] at hDir
        exact hFile hDir
      have hUpd : upd N₃ i (N₁ i) d = N₃ d := upd_of_ne hNe
      have hChange := @Change.link sb (fun i => Ok E (P i)) (upd N₃ i (N₁ i)) d i name u
      simp only [upd_self, upd_upd, hUpd, ← hNow, upd_eta] at hChange
      exact hChange hDir hFile hTyped (h₂.range hip) hNew hFits hGood' hGood

/-! ## unlink -/

/-- An entry that is there can be written. -/
theorem not_refused {size j : Nat} (hSize : size ≤ MAXFILE * BSIZE) (hj : j < size / 16) :
    ¬ Refused size (16 * j) 16 := by
  have hMax : MAXFILE * BSIZE < 2 ^ 31 := by decide
  rintro (hBad | hBad | hBad) <;> omega

/-- The end of an `unlink` that succeeds. -/
theorem unlink_good (ip dp : Ref) {j : Nat} {type : BitVec 16} (h : At sb S D N (ip ::ₘ dp ::ₘ K) {ip.slot, dp.slot} c)
    (hNe : ip.slot ≠ dp.slot) (hj : j < (N dp.inum).slots) (hOut : E .ballocOutOfBlocks) :
    wp E (do
        when ((← writei dp.slot (ofList (List.replicate 16 0)) (16 * j) 16) ≠ some 16) (throw .unlinkWritei)
        when (type = T_DIR) do
          setDin dp.slot fun di => { di with nlink := di.nlink - 1 }
          iupdate dp.slot
        iunlockput dp.slot
        setDin ip.slot fun di => { di with nlink := di.nlink - 1 }
        iupdate ip.slot
        iunlockput ip.slot
        return (0 : Int))
      (fun ret c' => ret = 0 ∧ ∃ u D' N', At sb S D' N' K ∅ c' ∧
        Reaped K (upd (upd N dp.inum (((N dp.inum).setEnt j (List.replicate 16 0) u).links
          (if type = T_DIR then (N dp.inum).nlink - 1 else (N dp.inum).nlink))) ip.inum
            ((N ip.inum).links ((N ip.inum).nlink - 1))) N') c := by
  have hip : ip ∈ ip ::ₘ dp ::ₘ K := Multiset.mem_cons_self _ _
  have hdp : dp ∈ ip ::ₘ dp ::ₘ K := Multiset.mem_cons_of_mem (Multiset.mem_cons_self _ _)
  have hLock : dp.slot ∈ ({ip.slot, dp.slot} : Finset Nat) := Finset.mem_insert_of_mem (Finset.mem_singleton_self _)
  have hInum : ip.inum ≠ dp.inum := fun hEq => hNe ((h.uniq hip hdp).mpr hEq)
  have hBound : (N dp.inum).size ≤ MAXFILE * BSIZE := (h.node hdp hLock).1.bound
  rw [wp_bind]
  refine (writeEnt_at h hdp hLock fun _ => hOut).mono ?_
  rintro _ c₁ (⟨hBad, -⟩ | ⟨-, rfl, u, D₁, h₁⟩)
  · exact absurd hBad (not_refused hBound hj)
  rw [wp_bind, wp_when]
  refine ⟨fun hBad => absurd rfl hBad, fun _ => ?_⟩
  -- a directory that goes is no longer a child of its parent
  have hParent : wp E (when (type = T_DIR) do
        setDin dp.slot fun di => { di with nlink := di.nlink - 1 }
        iupdate dp.slot)
      (fun _ c' => ∃ D', At sb S D' (upd N dp.inum (((N dp.inum).setEnt j (List.replicate 16 0) u).links
        (if type = T_DIR then (N dp.inum).nlink - 1 else (N dp.inum).nlink))) (ip ::ₘ dp ::ₘ K)
          {ip.slot, dp.slot} c') c₁ := by
    rw [wp_when]
    constructor
    · intro hType
      refine (links_at (v := (N dp.inum).nlink - 1) h₁ hdp hLock fun di hLink => ?_).mono fun _ c' h' => ?_
      · rw [hLink, upd_self]
        rfl
      · rw [if_pos hType]
        rw [upd_self, upd_upd] at h'
        exact ⟨_, h'⟩
    · intro hType
      rw [if_neg hType]
      exact ⟨D₁, h₁⟩
  rw [wp_bind]
  refine hParent.mono ?_
  rintro _ c₂ ⟨D₂, h₂⟩
  rw [Multiset.cons_swap] at h₂
  rw [wp_bind]
  refine (iunlockput_at h₂ hLock).mono ?_
  rintro _ c₃ ⟨D₃, N₃, hLapse, h₃⟩
  have hErase : ({ip.slot, dp.slot} : Finset Nat).erase dp.slot = {ip.slot} := by
    rw [Finset.pair_comm, Finset.erase_insert (by rwa [Finset.mem_singleton, eq_comm])]
  rw [hErase] at h₃
  have hip₃ : ip ∈ ip ::ₘ K := Multiset.mem_cons_self _ _
  have hSame : N₃ ip.inum = N ip.inum := by
    rw [hLapse.reaped.keeps hip₃, upd_of_ne hInum]
  refine wp_change ((links_at (v := (N ip.inum).nlink - 1) h₃ hip₃ (Finset.mem_singleton_self _)
    fun di hLink => ?_).mono fun _ c₄ h₄ => ?_)
  · rw [hLink, hSame]
  rw [wp_bind]
  refine (unlockput_at h₄).mono ?_
  rintro _ c' ⟨D', N', hLapse', h'⟩
  rw [hSame] at hLapse'
  exact wp_pure.mpr ⟨rfl, u, D', N', h', (hLapse.reaped.upd _).trans hLapse'.reaped⟩

theorem unlink_at (h : Ready E sb S K P D N r c) (hLinks : Ok E (∀ i, P i → 1 ≤ (N i).nlink.toInt))
    (path : List UInt8) :
    wp E (unlink r.slot path) (Named E sb S K P D N) c := by
  rw [unlink, wp_bind]
  refine (h.nameiparent path).mono ?_
  rintro ⟨_, name⟩ c₁ ⟨D₁, N₁, hLapse₁, ⟨rfl, h₁⟩ | ⟨k', d, rfl, h₁, hDir, hGood'⟩⟩
  · exact wp_pure.mpr (.inl ⟨rfl, D₁, N₁, hLapse₁, h₁⟩)
  specialize hDir rfl
  have hFirm₁ := h.firm.reaped hLapse₁.reaped
  have hDirs₁ := h.dirs.reaped hLapse₁.reaped
  have hLinks₁ : Ok E (∀ i, P i → 1 ≤ (N₁ i).nlink.toInt) :=
    (h.firm.and hLinks).imp fun hF => hLapse₁.reaped.eq hF.1.bound ▸ hF.2
  have hdp : (⟨k', d⟩ : Ref) ∈ ⟨k', d⟩ ::ₘ K := Multiset.mem_cons_self _ _
  have hLocked' : k' ∈ ({k'} : Finset Nat) := Finset.mem_singleton_self k'
  have hTyped' : T_DIR ≠ 0 := by decide
  show wp E (do ilock k'; _) _ c₁
  rw [wp_bind]
  refine (lock_at (r := ⟨k', d⟩) h₁ hdp fun h0 => absurd (hDir.symm.trans h0) hTyped').mono fun _ c₂ h₂ => ?_
  have hBad : wp E (do iunlockput k'; return (-1 : Int)) (Named E sb S K P D N) c₂ := by
    rw [wp_bind]
    exact (unlockput_at (r := ⟨k', d⟩) h₂).mono fun _ c' h' => wp_pure.mpr (.inl ⟨rfl, h'.lapse hLapse₁⟩)
  rw [wp_ite]
  refine ⟨fun _ => hBad, fun hDots => ?_⟩
  rw [namecmp_eq_zero, namecmp_eq_zero, not_or] at hDots
  rw [wp_bind]
  refine (dirlookup_at (r := ⟨k', d⟩) h₂ hdp hLocked' hDir (.of_holes (hDirs₁.holes d hDir) _ _)
    (fun hOdd => (hFirm₁.and hGood').error fun hF => hOdd (hF.1.whole d hF.2 hDir)) (hDirs₁.lookup hDir)
    fun _ => h.lax.inodes).mono ?_
  rintro _ c₃ (⟨j, k, hFound, rfl, h₃, -⟩ | ⟨-, rfl, rfl⟩)
  swap
  · exact hBad
  have hLookup := lookup_ne_zero hFound
  have hRest : Ok E (P (ent (N₁ d) j).inum) := (hFirm₁.and hGood').imp fun hF => hF.1.next d hF.2 hDir j hLookup.2 hLookup.1
  generalize hi : (ent (N₁ d) j).inum = i at h₃ hRest
  have hip : (⟨k, i⟩ : Ref) ∈ ⟨k, i⟩ ::ₘ ⟨k', d⟩ ::ₘ K := Multiset.mem_cons_self _ _
  have hdp' : (⟨k', d⟩ : Ref) ∈ ⟨k, i⟩ ::ₘ ⟨k', d⟩ ::ₘ K := Multiset.mem_cons_of_mem hdp
  show wp E (do ilock k; _) _ c₃
  rw [wp_bind]
  refine (ilock_at (r := ⟨k, i⟩) (h₃.mono Set.sdiff_subset) hip (fun _ => h.lax.blocked)
    fun h0 => (hFirm₁.and hRest).error fun hF => hF.1.typed i hF.2 h0).mono ?_
  rintro _ c₄ ⟨hk, h₄⟩
  have hNeSlot : k ≠ k' := fun hEq => hk (Finset.mem_singleton.mpr hEq)
  have hLock : k ∈ insert k ({k'} : Finset Nat) := Finset.mem_insert_self _ _
  have hLock' : k' ∈ insert k ({k'} : Finset Nat) := Finset.mem_insert_of_mem hLocked'
  have hNe : i ≠ d := fun hEq => hNeSlot ((h₄.uniq hip hdp').mpr hEq)
  rw [wp_bind, wp_inode, h₄.nlink hip hLock, wp_bind, wp_when]
  refine ⟨fun hLow => wp_throw.mpr ((hLinks₁.and hRest).error fun hF => ?_), fun hLow => ?_⟩
  · exact absurd hLow (Int.not_lt.mpr (hF.1 i hF.2))
  rw [wp_bind, wp_inode, h₄.type hip hLock]
  extract_lets type jp
  have hBusy : wp E (jp true) (Named E sb S K P D N) c₄ := by
    show wp E (do
      iunlockput k
      iunlockput k'
      return (-1 : Int)) _ c₄
    rw [wp_bind]
    refine (iunlockput_at (r := ⟨k, i⟩) h₄ hLock).mono ?_
    rintro _ c₅ ⟨D₂, N₂, hLapse₂, h₅⟩
    rw [Finset.erase_insert hk] at h₅
    rw [wp_bind]
    exact (unlockput_at (r := ⟨k', d⟩) h₅).mono fun _ c' h' => wp_pure.mpr
      (.inl ⟨rfl, h'.lapse (hLapse₁.trans (hLapse₂.mono (Multiset.subset_cons _ _)))⟩)
  have hGo : (type = T_DIR → find (N₁ i) (fun de => de.inum ≠ 0) 2 = none) →
      wp E (jp false) (Named E sb S K P D N) c₄ := by
    intro hEmpty
    refine (unlink_good ⟨k, i⟩ ⟨k', d⟩ h₄ hNeSlot hLookup.2 h.lax.blocks).mono ?_
    rintro ret c' ⟨rfl, u, D', N', h', hReaped⟩
    exact .inr ⟨rfl, N₁, _, D', N', hLapse₁.reaped, .unlink u hDir (h₄.typed hip hLock) hNe hi hFound hDots
      (Int.not_lt.mp hLow) hEmpty hGood' hRest, hReaped, h'⟩
  rw [wp_ite]
  constructor
  · intro hType
    have hTypeDir : (N₁ i).type = T_DIR := hType
    rw [wp_bind, wp_map]
    refine (isdirempty_at (r := ⟨k, i⟩) h₄ hip hLock (hDirs₁.holes i hTypeDir)
      fun hOdd => (hFirm₁.and hRest).error fun hF => hOdd (hF.1.whole i hF.2 hTypeDir)).mono ?_
    rintro _ c₅ ⟨rfl, rfl⟩
    cases hFind : find (N₁ i) (fun de => de.inum ≠ 0) 2 with
    | some e =>
      exact hBusy
    | none =>
      exact hGo fun _ => hFind
  · intro hType
    exact hGo fun hBad => absurd hBad hType

/-! ## create -/

/-- A new directory, before it has entries. -/
theorem lookup_nil {n : Node} (h : n.size = 0) (name : List UInt8) : lookup n name = none ∧ vacant n = 0 := by
  have hSlots : n.slots = 0 := by rw [Node.slots, h]
  exact ⟨find_end (Nat.le_of_eq hSlots), by rw [vacant, find_end (Nat.le_of_eq hSlots), hSlots]; rfl⟩

/-- With one entry. -/
theorem lookup_dotdot {n : Node} (h : n.size = 0) (i : Nat) (u : Finset Nat) :
    lookup (n.setEnt 0 (entBytes dot i) u) dotdot = none := by
  refine find_eq_none.mpr fun j _ hj => ?_
  have hSlots : n.slots = 0 := by rw [Node.slots, h]
  rw [slots_setEnt, hSlots] at hj
  obtain rfl : j = 0 := by omega
  rw [ent_entBytes, isEntry, decide_eq_false_iff_not, namecmp_eq_zero, key_key]
  exact fun hBad => absurd hBad.2 (by decide)

/-- A name that is not there is added to a directory. -/
theorem dirlink_new {name : List UInt8} {inum : Nat} (h : At sb S D N R L c) (hr : r ∈ R) (hL : r.slot ∈ L)
    (hType : (N r.inum).type = T_DIR) (hHoles : (N r.inum).holes = ∅) (hWhole : (N r.inum).size % 16 = 0)
    (hNone : lookup (N r.inum) name = none) (hFits : ¬ Refused (N r.inum).size (16 * vacant (N r.inum)) 16)
    (hE : Lax E) :
    wp E (dirlink r.slot name inum) (fun ret c' => ret = true ∧ ∃ u D', At sb S D'
      (upd N r.inum ((N r.inum).setEnt (vacant (N r.inum)) (entBytes name inum) u)) R L c') c := by
  refine (dirlink_at h hr hL hType hHoles (fun hOdd => absurd hWhole hOdd) (fun j hj => ?_) (fun _ => hE.inodes)
    (fun _ => hE.blocks) fun hFull => absurd hFull hFits).mono ?_
  · rw [hNone] at hj
    cases hj
  · rintro _ c' (⟨hFound, -⟩ | ⟨-, rfl, -, u, D', h'⟩)
    · exact absurd hNone hFound
    · exact ⟨rfl, u, D', h'⟩

/-- The first two entries of a new directory, and the link its parent gets for the second. -/
theorem create_dots (ip dp : Ref) {n : Node} (h : At sb S D N (ip ::ₘ dp ::ₘ K) {ip.slot, dp.slot} c)
    (hNe : ip.slot ≠ dp.slot) (hNew : N ip.inum = n) (hType : n.type = T_DIR) (hSize : n.size = 0)
    (hHoles : n.holes = ∅) (hE : Lax E) :
    wp E (do
        setDin dp.slot fun di => { di with nlink := di.nlink + 1 }
        iupdate dp.slot
        when (!(← dirlink ip.slot dot (← inode ip.slot).inum)) (throw .createDots)
        when (!(← dirlink ip.slot dotdot (← inode dp.slot).inum)) (throw .createDots))
      (fun _ c' => ∃ u₁ u₂ D', At sb S D' (upd (upd N ip.inum
          ((n.setEnt 0 (entBytes dot ip.inum) u₁).setEnt
            (vacant (n.setEnt 0 (entBytes dot ip.inum) u₁)) (entBytes dotdot dp.inum) u₂))
          dp.inum ((N dp.inum).links ((N dp.inum).nlink + 1))) (ip ::ₘ dp ::ₘ K) {ip.slot, dp.slot} c') c := by
  have hip : ip ∈ ip ::ₘ dp ::ₘ K := Multiset.mem_cons_self _ _
  have hdp : dp ∈ ip ::ₘ dp ::ₘ K := Multiset.mem_cons_of_mem (Multiset.mem_cons_self _ _)
  have hLock : ip.slot ∈ ({ip.slot, dp.slot} : Finset Nat) := Finset.mem_insert_self _ _
  have hLock' : dp.slot ∈ ({ip.slot, dp.slot} : Finset Nat) := Finset.mem_insert_of_mem (Finset.mem_singleton_self _)
  have hInum : ip.inum ≠ dp.inum := fun hEq => hNe ((h.uniq hip hdp).mpr hEq)
  have hSmall : ∀ s j, j ≤ 1 → 16 * j ≤ s → ¬ Refused s (16 * j) 16 := fun s j hj hs => by
    have hMax : 32 ≤ MAXFILE * BSIZE := by decide
    rintro (hBad | hBad | hBad) <;> omega
  refine wp_change ((links_at (v := (N dp.inum).nlink + 1) h hdp hLock' fun di hLink => ?_).mono fun _ c₁ h₁ => ?_)
  · rw [hLink]
  have hNone := lookup_nil hSize dot
  have hOne := lookup_dotdot hSize ip.inum
  generalize hN₁ : upd N dp.inum ((N dp.inum).links ((N dp.inum).nlink + 1)) = N₁ at h₁
  have hNew₁ : N₁ ip.inum = n := by rw [← hN₁, upd_of_ne hInum, hNew]
  rw [wp_bind, wp_inode, h₁.inum hip, wp_bind]
  refine (dirlink_new h₁ hip hLock (by rw [hNew₁, hType]) (by rw [hNew₁, hHoles]) (by rw [hNew₁, hSize])
    (by rw [hNew₁, hNone.1]) (by rw [hNew₁, hNone.2, hSize]; exact hSmall 0 0 (Nat.zero_le _) (Nat.le_refl _)) hE).mono ?_
  rintro _ c₂ ⟨rfl, u₁, D₂, h₂⟩
  rw [hNew₁, hNone.2] at h₂
  rw [wp_bind, wp_when]
  refine ⟨fun hBad => absurd hBad (by decide), fun _ => ?_⟩
  rw [wp_bind, wp_inode, h₂.inum hdp, wp_bind]
  have hSize₂ : (n.setEnt 0 (entBytes dot ip.inum) u₁).size = 16 := by
    show max n.size (16 * 0 + 16) = 16
    omega
  have hVacant : vacant (n.setEnt 0 (entBytes dot ip.inum) u₁) ≤ 1 := by
    refine Nat.le_trans (vacant_le _) ?_
    rw [Node.slots, hSize₂]
  refine (dirlink_new h₂ hip hLock (by rw [upd_self]; exact hType) (by rw [upd_self]; exact hHoles)
    (by rw [upd_self, hSize₂]) (by rw [upd_self]; exact hOne u₁)
    (by rw [upd_self, hSize₂]; exact hSmall 16 _ hVacant (by omega)) hE).mono ?_
  rintro _ c₃ ⟨rfl, u₂, D₃, h₃⟩
  rw [wp_when]
  refine ⟨fun hBad => absurd hBad (by decide), fun _ => ⟨u₁, u₂, D₃, ?_⟩⟩
  rw [upd_self, upd_upd, ← hN₁, upd_comm hInum.symm] at h₃
  exact h₃

/-- The end of `create` for a name that is not there. -/
theorem create_new (dp : Ref) {name : List UInt8} {type major minor : BitVec 16}
    (h : At sb S D N (dp ::ₘ K) {dp.slot} c) (hType : type ≠ 0) (hDir : (N dp.inum).type = T_DIR)
    (hHoles : (N dp.inum).holes = ∅) (hNew : lookup (N dp.inum) name = none) (hE : Lax E)
    (hErr : (N dp.inum).size % 16 ≠ 0 → E .dirlookupRead ∧ E .dirlinkRead)
    (hFull : Refused (N dp.inum).size (16 * vacant (N dp.inum)) 16 → E .dirlink) :
    wp E (do
        let ip ← ialloc (← inode dp.slot).dev type
        ilock ip
        setDin ip fun di => { di with major := major, minor := minor, nlink := 1 }
        iupdate ip
        when (type = T_DIR) do
          setDin dp.slot fun di => { di with nlink := di.nlink + 1 }
          iupdate dp.slot
          when (!(← dirlink ip dot (← inode ip).inum)) (throw .createDots)
          when (!(← dirlink ip dotdot (← inode dp.slot).inum)) (throw .createDots)
        when (!(← dirlink dp.slot name (← inode ip).inum)) (throw .createDirlink)
        iunlockput dp.slot
        return some ip)
      (fun ret c' => ∃ k i u u₁ u₂ D' N', ret = some k ∧ N i = Node.free ∧ (1 ≤ i ∧ i < sb.ninodes) ∧
        ¬ Refused (N dp.inum).size (16 * vacant (N dp.inum)) 16 ∧ At sb S D' N' (⟨k, i⟩ ::ₘ K) {k} c' ∧
        Reaped (⟨k, i⟩ ::ₘ K) (upd (upd N i (Node.made type major minor dp.inum i u₁ u₂)) dp.inum
          (((N dp.inum).links (if type = T_DIR then (N dp.inum).nlink + 1 else (N dp.inum).nlink)).setEnt
            (vacant (N dp.inum)) (entBytes name i) u)) N') c := by
  have hdp₀ : dp ∈ dp ::ₘ K := Multiset.mem_cons_self _ _
  rw [wp_bind, wp_inode, h.dev hdp₀, wp_bind]
  refine (ialloc_at h hType (fun _ => hE.ialloc) fun _ => hE.inodes).mono ?_
  rintro k c₁ ⟨i, hPos, hLt, hFree, D₁, h₁⟩
  have hip : (⟨k, i⟩ : Ref) ∈ ⟨k, i⟩ ::ₘ dp ::ₘ K := Multiset.mem_cons_self _ _
  have hdp : dp ∈ ⟨k, i⟩ ::ₘ dp ::ₘ K := Multiset.mem_cons_of_mem hdp₀
  rw [wp_bind]
  refine (ilock_at (r := ⟨k, i⟩) h₁ hip (fun _ => hE.blocked) fun h0 => ?_).mono ?_
  · rw [show upd N i (Node.fresh type) (Ref.inum ⟨k, i⟩) = _ from upd_self ..] at h0
    exact absurd h0 hType
  rintro _ c₂ ⟨hk, h₂⟩
  have hNe : k ≠ dp.slot := fun hEq => hk (Finset.mem_singleton.mpr hEq)
  have hLock : k ∈ ({k, dp.slot} : Finset Nat) := Finset.mem_insert_self _ _
  have hLock' : dp.slot ∈ ({k, dp.slot} : Finset Nat) := Finset.mem_insert_of_mem (Finset.mem_singleton_self _)
  have hInum : i ≠ dp.inum := fun hEq => hNe ((h₂.uniq hip hdp).mpr hEq)
  refine wp_change ((update_at (r := ⟨k, i⟩) h₂ hip hLock fun _ _ _ _ => rfl).mono fun _ c₃ h₃ => ?_)
  simp only [upd_self, upd_upd] at h₃
  generalize hv : (if type = T_DIR then (N dp.inum).nlink + 1 else (N dp.inum).nlink) = v
  have hDots : wp E (when (type = T_DIR) do
        setDin dp.slot fun di => { di with nlink := di.nlink + 1 }
        iupdate dp.slot
        when (!(← dirlink k dot (← inode k).inum)) (throw .createDots)
        when (!(← dirlink k dotdot (← inode dp.slot).inum)) (throw .createDots))
      (fun _ c' => ∃ u₁ u₂ D', At sb S D' (upd (upd N i (Node.made type major minor dp.inum i u₁ u₂)) dp.inum
        ((N dp.inum).links v)) (⟨k, i⟩ ::ₘ dp ::ₘ K) {k, dp.slot} c') c₃ := by
    rw [wp_when]
    constructor
    · intro hT
      refine (create_dots ⟨k, i⟩ dp h₃ hNe (upd_self ..) hT rfl rfl hE).mono ?_
      rintro _ c' ⟨u₁, u₂, D', h'⟩
      simp only [upd_upd, upd_of_ne hInum.symm] at h'
      rw [if_pos hT] at hv
      rw [hv] at h'
      refine ⟨u₁, u₂, D', ?_⟩
      rw [Node.made, if_pos hT]
      exact h'
    · intro hT
      rw [if_neg hT] at hv
      have hKept : (N dp.inum).links v = upd N i ((Node.fresh type).setFields major minor 1) dp.inum := by
        rw [upd_of_ne hInum.symm, ← hv]
        rfl
      have hSame : upd (upd N i (Node.made type major minor dp.inum i ∅ ∅)) dp.inum ((N dp.inum).links v) =
          upd N i ((Node.fresh type).setFields major minor 1) := by
        rw [Node.made, if_neg hT, hKept, upd_eta]
      rw [← hSame] at h₃
      exact ⟨∅, ∅, _, h₃⟩
  rw [wp_bind]
  refine hDots.mono ?_
  rintro _ c₄ ⟨u₁, u₂, D₄, h₄⟩
  generalize hN₄ : upd (upd N i (Node.made type major minor dp.inum i u₁ u₂)) dp.inum ((N dp.inum).links v) = N₄ at h₄
  have hNow : N₄ dp.inum = (N dp.inum).links v := by rw [← hN₄, upd_self]
  rw [wp_bind, wp_inode, h₄.inum hip, wp_bind]
  refine (dirlink_at h₄ hdp hLock' (by rw [hNow]; exact hDir) (by rw [hNow]; exact hHoles) (by rw [hNow]; exact hErr)
    (fun j hj => ?_) (fun _ => hE.inodes) (fun _ => hE.blocks) (by rw [hNow]; exact hFull)).mono ?_
  · rw [hNow] at hj
    cases hNew.symm.trans hj
  rw [hNow]
  rintro _ c₅ (⟨hFound, -⟩ | ⟨-, rfl, hFits, u, D₅, h₅⟩)
  · exact absurd hNew hFound
  rw [wp_bind, wp_when]
  refine ⟨fun hBad => absurd hBad (by decide), fun _ => ?_⟩
  rw [Multiset.cons_swap] at h₅
  rw [wp_bind]
  refine (iunlockput_at h₅ hLock').mono ?_
  rintro _ c' ⟨D', N', hLapse, h'⟩
  have hErase : ({k, dp.slot} : Finset Nat).erase dp.slot = {k} := by
    rw [Finset.pair_comm, Finset.erase_insert (by rwa [Finset.mem_singleton, eq_comm])]
  have hReaped := hLapse.reaped
  rw [← hN₄, upd_upd] at hReaped
  rw [hErase] at h'
  exact wp_pure.mpr ⟨k, i, u, u₁, u₂, D', N', rfl, hFree, ⟨hPos, hLt⟩, hFits, h', hReaped⟩

theorem create_at (h : Ready E sb S K P D N r c) (hRoom : Ok E (Room P N)) (path : List UInt8)
    {type : BitVec 16} (major minor : BitVec 16) (hType : type ≠ 0) :
    wp E (create r.slot path type major minor) (fun ret c' => ret = none ∧ Failed sb S K D N c' ∨
      ∃ k i N', ret = some k ∧ (type = T_FILE ∧ (N' i).type ≠ T_DIR ∧ Got E sb S K P D N k i N' c' ∨
        (N' i).type = type ∧ Made E sb S K P N k i N' c')) c := by
  rw [create, wp_bind]
  refine (h.nameiparent path).mono ?_
  rintro ⟨_, name⟩ c₁ ⟨D₁, N₁, hLapse₁, ⟨rfl, h₁⟩ | ⟨k', d, rfl, h₁, hDir, hGood'⟩⟩
  · exact wp_pure.mpr (.inl ⟨rfl, D₁, N₁, hLapse₁, h₁⟩)
  specialize hDir rfl
  have hFirm₁ := h.firm.reaped hLapse₁.reaped
  have hDirs₁ := h.dirs.reaped hLapse₁.reaped
  have hRoom₁ := hRoom.room h.firm hLapse₁.reaped
  have hdp : (⟨k', d⟩ : Ref) ∈ ⟨k', d⟩ ::ₘ K := Multiset.mem_cons_self _ _
  have hLocked' : k' ∈ ({k'} : Finset Nat) := Finset.mem_singleton_self k'
  have hTyped' : T_DIR ≠ 0 := by decide
  have hOdd : ∀ e, (N₁ d).size % 16 ≠ 0 → E e := fun e hOdd =>
    (hFirm₁.and hGood').error fun hF => hOdd (hF.1.whole d hF.2 hDir)
  show wp E (do ilock k'; _) _ c₁
  rw [wp_bind]
  refine (lock_at (r := ⟨k', d⟩) h₁ hdp fun h0 => absurd (hDir.symm.trans h0) hTyped').mono fun _ c₂ h₂ => ?_
  rw [wp_bind]
  refine (dirlookup_at (r := ⟨k', d⟩) h₂ hdp hLocked' hDir (.of_holes (hDirs₁.holes d hDir) _ _) (hOdd _)
    (hDirs₁.lookup hDir) fun _ => h.lax.inodes).mono ?_
  rintro _ c₃ (⟨j, k, hFound, rfl, h₃, -⟩ | ⟨hNew, rfl, rfl⟩)
  · -- there is an inode with this name
    have hLookup := lookup_ne_zero hFound
    have hGood : Ok E (P (ent (N₁ d) j).inum) :=
      (hFirm₁.and hGood').imp fun hF => hF.1.next d hF.2 hDir j hLookup.2 hLookup.1
    generalize (ent (N₁ (Ref.inum ⟨k', d⟩)) j).inum = i at h₃ hGood
    rw [Multiset.cons_swap] at h₃
    show wp E (do iunlockput k'; ilock k; _) _ c₃
    rw [wp_bind]
    refine (unlockput_at (r := ⟨k', d⟩) h₃).mono ?_
    rintro _ c₄ ⟨D₂, N₂, hLapse₂, h₄⟩
    have hLapse := hLapse₁.trans (hLapse₂.mono (Multiset.subset_cons K _))
    have hip : (⟨k, i⟩ : Ref) ∈ ⟨k, i⟩ ::ₘ K := Multiset.mem_cons_self _ _
    rw [wp_bind]
    refine (lock_at (r := ⟨k, i⟩) h₄ hip fun h0 => ((h.firm.reaped hLapse.reaped).and hGood).error
      fun hF => hF.1.typed i hF.2 h0).mono fun _ c₅ h₅ => ?_
    rw [wp_bind, wp_inode, h₅.type hip (Finset.mem_singleton_self k), wp_ite]
    constructor
    · rintro ⟨hFile, hOr⟩
      refine wp_pure.mpr (.inr ⟨k, i, N₂, rfl, .inl ⟨hFile, fun hBad => ?_, D₂, h₅, hLapse, hGood⟩⟩)
      rw [show (N₂ (Ref.inum ⟨k, i⟩)).type = T_DIR from hBad] at hOr
      exact absurd hOr (by decide)
    · intro _
      rw [wp_bind]
      exact (unlockput_at (r := ⟨k, i⟩) h₅).mono fun _ c' h' => wp_pure.mpr (.inl ⟨rfl, h'.lapse hLapse⟩)
  · refine (create_new ⟨k', d⟩ h₂ hType hDir (hDirs₁.holes d hDir) hNew h.lax (fun hBad => ⟨hOdd _ hBad, hOdd _ hBad⟩)
      fun hFull => (hRoom₁.and hGood').error fun hR => hR.1 d hR.2 hDir hFull).mono ?_
    rintro _ c' ⟨k, i, u, u₁, u₂, D', N', rfl, hFree, hi, hFits, h', hReaped⟩
    have hNe : i ≠ d := by
      rintro rfl
      rw [hFree] at hDir
      exact absurd hDir (by decide)
    refine .inr ⟨k, i, N', rfl, .inr ⟨?_, D', N₁, _, h', hLapse₁.reaped,
      .create u u₁ u₂ hDir hType hFree hi hNew hFits hGood', hReaped⟩⟩
    rw [hReaped.keeps (r := ⟨k, i⟩) (Multiset.mem_cons_self _ _), upd_of_ne hNe, upd_self, Node.made]
    split
    · rfl
    · rfl

theorem make_at (h : Ready E sb S K P D N r c) (hRoom : Ok E (Room P N)) (path : List UInt8)
    {type : BitVec 16} (major minor : BitVec 16) (hType : type ≠ 0) (hFile : type ≠ T_FILE) :
    wp E (make r.slot path type major minor) (Named E sb S K P D N) c := by
  rw [make, wp_bind]
  refine (create_at h hRoom path major minor hType).mono ?_
  rintro _ c₁ (⟨rfl, h₁⟩ | ⟨k, i, N₁, rfl, ⟨hBad, -⟩ | ⟨-, D₁, N₂, N₃, h₁, hBefore, hChange, hAfter⟩⟩)
  · exact wp_pure.mpr (.inl ⟨rfl, h₁⟩)
  · exact absurd hBad hFile
  · show wp E (do iunlockput k; return (0 : Int)) _ c₁
    rw [wp_bind]
    refine (unlockput_at (r := ⟨k, i⟩) h₁).mono ?_
    rintro _ c' ⟨D', N', hLapse, h'⟩
    exact wp_pure.mpr (.inr ⟨rfl, N₂, N₃, D', N', hBefore, hChange,
      (hAfter.mono (Multiset.subset_cons K _)).trans hLapse.reaped, h'⟩)

/-! ## open -/

theorem openPath_at (h : Ready E sb S K P D N r c) (hRoom : Ok E (Room P N)) (path : List UInt8)
    (omode : BitVec 32) :
    wp E (openPath r.slot path omode) (fun ret c' => ret = none ∧ Failed sb S K D N c' ∨
      ∃ k i N', ret = some k ∧ ((N' i).type = T_DIR → omode = 0) ∧ (Got E sb S K P D N k i N' c' ∨
        omode &&& O_CREATE ≠ 0 ∧ (N' i).type = T_FILE ∧ Made E sb S K P N k i N' c')) c := by
  rw [openPath, wp_ite]
  constructor
  · intro hCreate
    refine (create_at h hRoom path 0 0 (by decide)).mono ?_
    rintro _ c' (⟨rfl, h'⟩ | ⟨k, i, N', rfl, ⟨-, hType, h'⟩ | ⟨hType, h'⟩⟩)
    · exact .inl ⟨rfl, h'⟩
    · exact .inr ⟨k, i, N', rfl, fun hBad => absurd hBad hType, .inl h'⟩
    · refine .inr ⟨k, i, N', rfl, fun hBad => ?_, .inr ⟨hCreate, hType, h'⟩⟩
      exact absurd (hType.symm.trans hBad) (by decide)
  · intro _
    rw [wp_bind]
    refine (h.namei path).mono ?_
    rintro _ c₁ ⟨D₁, N₁, hLapse₁, ⟨rfl, h₁⟩ | ⟨k, i, rfl, h₁, -, hGood⟩⟩
    · exact wp_pure.mpr (.inl ⟨rfl, D₁, N₁, hLapse₁, h₁⟩)
    have hip : (⟨k, i⟩ : Ref) ∈ ⟨k, i⟩ ::ₘ K := Multiset.mem_cons_self _ _
    show wp E (do ilock k; _) _ c₁
    rw [wp_bind]
    refine (lock_at (r := ⟨k, i⟩) h₁ hip fun h0 => ((h.firm.reaped hLapse₁.reaped).and hGood).error
      fun hF => hF.1.typed i hF.2 h0).mono fun _ c₂ h₂ => ?_
    rw [wp_bind, wp_inode, h₂.type hip (Finset.mem_singleton_self k), wp_ite]
    constructor
    · intro _
      rw [wp_bind]
      exact (unlockput_at (r := ⟨k, i⟩) h₂).mono fun _ c' h' => wp_pure.mpr (.inl ⟨rfl, h'.lapse hLapse₁⟩)
    · intro hNot
      refine wp_pure.mpr (.inr ⟨k, i, N₁, rfl, fun hType => ?_, .inl ⟨D₁, h₂, hLapse₁, hGood⟩⟩)
      by_contra hMode
      exact hNot ⟨hType, hMode⟩

theorem openInode_at (h : Ready E sb S K P D N r c) (hRoom : Ok E (Room P N)) (path : List UInt8)
    (omode : BitVec 32) :
    wp E (openInode r.slot path omode) (fun ret c' => ret = none ∧ Failed sb S K D N c' ∨
      ∃ k i N', ret = some k ∧ ((N' i).type = T_DIR → omode = 0) ∧ (Got E sb S K P D N k i N' c' ∨
        omode &&& O_CREATE ≠ 0 ∧ Made E sb S K P N k i N' c')) c := by
  rw [openInode, wp_bind]
  refine (openPath_at h hRoom path omode).mono ?_
  rintro _ c₁ (⟨rfl, h₁⟩ | ⟨k, i, N', rfl, hDir, hGot⟩)
  · exact wp_pure.mpr (.inl ⟨rfl, h₁⟩)
  have hip : (⟨k, i⟩ : Ref) ∈ ⟨k, i⟩ ::ₘ K := Multiset.mem_cons_self _ _
  have hSame : (c₁.itable k).din.type = (N' i).type := by
    rcases hGot with ⟨D₁, h₁, -⟩ | ⟨-, -, D₁, _, _, h₁, -⟩
    · exact h₁.type hip (Finset.mem_singleton_self k)
    · exact h₁.type hip (Finset.mem_singleton_self k)
  show wp E (do let din := (← inode k).din; _) _ c₁
  rw [wp_bind, wp_inode, wp_ite]
  constructor
  · rintro ⟨hDevice, -⟩
    rw [hSame] at hDevice
    rcases hGot with ⟨D₁, h₁, hLapse, -⟩ | ⟨-, hType, -⟩
    · rw [wp_bind]
      exact (unlockput_at (r := ⟨k, i⟩) h₁).mono fun _ c' h' => wp_pure.mpr (.inl ⟨rfl, h'.lapse hLapse⟩)
    · exact absurd (hDevice.symm.trans hType) (by decide)
  · intro _
    exact wp_pure.mpr (.inr ⟨k, i, N', rfl, hDir, hGot.imp_right fun hMade => ⟨hMade.1, hMade.2.2⟩⟩)

end Xv6.Fs
