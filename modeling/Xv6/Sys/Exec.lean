import Xv6.Sys.Load

/-!
# xv6 — `exec`

What `exec` does with memory, whatever the file holds. Until the new image is complete the process keeps the old one, and
the pages of an image that is not completed all go back. Then the old image is freed.
-/

namespace Xv6.Sys

open Hoare Finset
open Vm (Layout Mem Page Pte PgTable PageOk Space Valid Image Touched Fresh pool own npages umem userPte userFlags
  PGSIZE PGROUNDUP u64)

variable {F : Panic → Prop} {L : Layout} {s s' : State} {m m' : Mem} {A A₀ : Multiset Nat}
  {p pt pt₀ tf n sz sp entry : Nat} {f f₀ : Nat → Option Pte} {img : Nat → UInt8} {path : List UInt8}
  {argv : List (List UInt8)} {ustack : List Nat} {Q : Int → State → Prop}

/-! ## The new image -/

/-- An image that is complete: `n` pages with the bytes `img`, a page that users cannot access, and the stack. -/
structure Program (L : Layout) (m : Mem) (pt tf n : Nat) (A : Multiset Nat) (f : Nat → Option Pte) (img : Nat → UInt8)
    (argv : List (List UInt8)) (sp : Nat) (ustack : List Nat) : Prop where
  tree  : PgTable m pt A f
  space : Space L f (n + 2) tf
  bytes : ∀ a < n * PGSIZE, umem m f a = some (img a)
  guard : ∀ a, n * PGSIZE ≤ a → a < (n + 1) * PGSIZE → umem m f a = none
  stack : Stack m f ((n + 2) * PGSIZE) argv sp ustack

theorem Program.congr (h : Program L m pt tf n A f img argv sp ustack) (hTree : PgTable m' pt A f)
    (hSame : ∀ a, umem m' f a = umem m f a) : Program L m' pt tf n A f img argv sp ustack where
  tree := hTree
  space := h.space
  bytes a ha := (hSame a).trans (h.bytes a ha)
  guard a ha ha' := (hSame a).trans (h.guard a ha ha')
  stack := h.stack.congr hSame

/-- The stack of a program of `n` pages is made: two pages are added, the first of them becomes the guard page. -/
theorem wp_buildStack {k : Option Nat → S Int}
    (hLoad : Loading L s.mem pt tf ((n + 2) * PGSIZE) A f img)
    (hValid : Valid L (A + own f (Ico 0 (n + 2))) s.mem) (hn : n + 2 ≤ Vm.NPAGES) (hFresh : Fresh s.mem f n)
    (hLen : ∀ s ∈ argv, s.length < PGSIZE)
    (h : ∀ r m' f', PgTable m' pt A f' → Space L f' (n + 2) tf →
      pool.Moves (A + own f (Ico 0 (n + 2))) (A + own f' (Ico 0 (n + 2))) s.mem m' →
      (∀ sp, r = some sp → ∃ ustack, Program L m' pt tf n A f' img argv sp ustack) → wp F (k r) Q { s with mem := m' }) :
    wp F (do
      vm (Vm.uvmclear pt (n * PGSIZE))
      k (← vm (pushStack pt ((n + 2) * PGSIZE) argv))) Q s := by
  have hN := Vm.npages_limit
  have hPages : npages ((n + 2) * PGSIZE) = n + 2 := Vm.npages_mul (by omega)
  obtain ⟨-, hTree, hSpace, hBytes, -⟩ := hLoad
  rw [hPages] at hSpace hBytes
  have hTop : (n + 2) * PGSIZE - PGSIZE = (n + 1) * PGSIZE := by rw [Nat.succ_mul, Nat.add_sub_cancel]
  have hUp : (n + 1) * PGSIZE ≤ (n + 2) * PGSIZE := Nat.mul_le_mul_right _ (Nat.le_succ _)
  have hUp' : n * PGSIZE ≤ (n + 1) * PGSIZE := Nat.mul_le_mul_right _ (Nat.le_succ _)
  obtain ⟨w, hw, hFlags, -⟩ := hFresh.entry
  rw [wp_bind, wp_vm]
  refine Vm.wp_uvmclear_space hSpace hTree hValid.left.held (by omega) hw hFlags
    fun m₁ f' hTree₁ hSpace₁ hMap hGuard hOwn hMoves₁ => ?_
  have hKept : ∀ x ∈ own f (Ico 0 (n + 2)), m₁.page x = s.mem.page x := fun x hx => hMoves₁.cell_eq hValid.nodup hx
  have hValid₁ := (hMoves₁.add (own f (Ico 0 (n + 2)))).valid hValid
  rw [← hOwn] at hValid₁
  have hImage := hSpace₁.image hTree₁ hValid₁
  have hMem : ∀ a, a < (n + 2) * PGSIZE → a / PGSIZE ≠ n → umem m₁ f' a = some (img a) := fun a ha hne => by
    rw [Vm.umem_congr (hMap _ hne) fun w hw => hKept _ (Vm.mem_own (mem_Ico.mpr ⟨Nat.zero_le _, ?_⟩) hw)]
    · exact hBytes a ha
    · exact (Nat.div_lt_iff_lt_mul (by decide)).mpr ha
  -- what the caller gets, whatever was pushed
  have hEnd : ∀ r m₂, Touched f' ((n + 2) * PGSIZE - PGSIZE) ((n + 2) * PGSIZE) m₁ m₂ →
      (∀ sp, r = some sp → ∃ ustack, Stack m₂ f' ((n + 2) * PGSIZE) argv sp ustack) → wp F (k r) Q { s with mem := m₂ } :=
    fun r m₂ hTouched hStack => by
      refine h r m₂ f' (hTouched.image hImage).tree hSpace₁ ?_ fun sp hsp => ?_
      · rw [hOwn]
        have hMoves₂ := hTouched.moves hImage
        rw [hOwn] at hMoves₂
        exact (hMoves₁.add _).trans (hMoves₂.add_left A)
      · obtain ⟨ustack, hStack⟩ := hStack sp hsp
        refine ⟨ustack, (hTouched.image hImage).tree, hSpace₁, fun a ha => ?_, fun a ha ha' => ?_, hStack⟩
        · have hPage : a / PGSIZE < n := (Nat.div_lt_iff_lt_mul (by decide)).mpr ha
          rw [hTouched.bytes a (.inl (by rw [hTop]; exact ha.trans_le hUp')), hMem a (ha.trans_le (hUp'.trans hUp)) hPage.ne]
        · rw [hTouched.bytes a (.inl (by rwa [hTop])), umem]
          rw [show a / PGSIZE = n from Nat.div_eq_of_lt_le ha ha', hGuard]
          rfl
  rw [wp_bind, wp_vm]
  refine wp_pushStack hImage ?_ ?_ ?_ ?_ hLen (fun m₂ hTouched => hEnd none m₂ hTouched fun _ => of_none_eq_some)
    fun sp ustack m₂ hStack hTouched => hEnd (some sp) m₂ hTouched fun sp' hsp' => ?_
  · exact Nat.mul_le_mul_right _ (by omega)
  · unfold PGSIZE
    omega
  · unfold PGSIZE
    omega
  · intro a ha ha'
    have hByte := hMem a ha' ?_
    · rw [umem] at hByte
      cases hPte : userPte f' (a / PGSIZE) with
      | none =>
        rw [hPte] at hByte
        cases hByte
      | some w => rfl
    · rw [hTop] at ha
      have hPage : n + 1 ≤ a / PGSIZE := (Nat.le_div_iff_mul_le (by decide)).mpr ha
      omega
  · cases hsp'
    exact ⟨ustack, hStack⟩

/-! ## The image takes the place of the old one -/

theorem wp_setReg {r : Reg} {x : Nat} {Q : Unit → State → Prop} (hTf : (s.proc p).trapframe = some tf) :
    wp F (setReg p r x) Q s ↔
      Q () { s with mem := s.mem.put tf (ByteBuf.setField (s.mem.page tf) r.offset 8 x) } := by
  rw [setReg, wp_bind, wp_proc, hTf, wp_bind, wp_deref, wp_vm, Vm.wp_store]

/-- The trapframe page `b` with the registers a program starts with. -/
def startRegs (b : Page) (entry sp : Nat) : Page :=
  ByteBuf.setField (ByteBuf.setField (ByteBuf.setField b Reg.a1.offset 8 sp) Reg.epc.offset 8 entry) Reg.sp.offset 8 sp

/-- A process that runs another program. -/
def Proc.execed (pr : Proc) (pt sz : Nat) (path : List UInt8) : Proc :=
  { pr with name := safestrcpy pr.name (lastElem path path), pagetable := some pt, sz := sz }

/-- The process gets the new image, and the old one is freed. -/
theorem wp_commit (hOld : Owner L s.mem (s.proc p) pt₀ tf A₀ f₀)
    (hProg : Program L s.mem pt tf n A f img argv sp ustack)
    (hValid : Valid L (A + own f (Ico 0 (n + 2)) + {tf} + (A₀ + own f₀ (Ico 0 (npages (s.proc p).sz)))) s.mem)
    (h : ∀ m₁ m', Program L m' pt tf n A f img argv sp ustack → m'.page tf = startRegs (s.mem.page tf) entry sp →
      pool.Moves {tf} {tf} s.mem m₁ → pool.Moves (A₀ + own f₀ (Ico 0 (npages (s.proc p).sz))) 0 m₁ m' →
      Q argv.length { s with mem := m', proc := upd s.proc p ((s.proc p).execed pt sz path) }) :
    wp F (do
      setReg p .a1 sp
      setProc p fun pr => { pr with name := safestrcpy pr.name (lastElem path path) }
      let oldpagetable ← deref (← proc p).pagetable
      setProc p fun pr => { pr with pagetable := some pt, sz := sz }
      setReg p .epc entry
      setReg p .sp sp
      vm (Vm.proc_freepagetable L oldpagetable (s.proc p).sz)
      return (argv.length : Int)) Q s := by
  generalize hX : A₀ + own f₀ (Ico 0 (npages (s.proc p).sz)) = X at hValid h
  rw [wp_bind, wp_setReg hOld.trapframe, wp_bind, wp_setProc, wp_bind, wp_proc]
  dsimp only
  rw [upd_self, hOld.pagetable, wp_bind, wp_deref, wp_bind, wp_setProc]
  dsimp only
  rw [upd_self, upd_upd, wp_bind, wp_setReg (show _ = some tf by dsimp only; rw [upd_self]; exact hOld.trapframe)]
  dsimp only
  rw [wp_bind, wp_setReg (show _ = some tf by dsimp only; rw [upd_self]; exact hOld.trapframe)]
  simp only [Vm.Mem.put_page, upd_self, Vm.Mem.put_put]
  have hStart : ByteBuf.setField (ByteBuf.setField (ByteBuf.setField (s.mem.page tf) Reg.a1.offset 8 sp)
    Reg.epc.offset 8 entry) Reg.sp.offset 8 sp = startRegs (s.mem.page tf) entry sp := rfl
  rw [hStart]
  -- nobody else has the trapframe
  have hPut : pool.Moves {tf} {tf} s.mem (s.mem.put tf (startRegs (s.mem.page tf) entry sp)) :=
    Vm.moves_store (Multiset.mem_singleton_self tf)
  have hHeld := (hPut.add_left (A + own f (Ico 0 (n + 2)))).add X
  have hNodup := hValid.held
  have hOut : ∀ x ∈ A + own f (Ico 0 (n + 2)), x ≠ tf := fun x hx hEq =>
    Multiset.disjoint_left.mp (Multiset.nodup_add.mp hValid.left.held).2.2 hx (hEq ▸ Multiset.mem_singleton_self tf)
  have hOutOld : ∀ x ∈ X, x ≠ tf := fun x hx hEq => by
    refine Multiset.disjoint_right.mp (Multiset.nodup_add.mp hNodup).2.2 hx ?_
    rw [hEq]
    exact Multiset.mem_add.mpr (.inr (Multiset.mem_singleton_self tf))
  have hTree : PgTable (s.mem.put tf (startRegs (s.mem.page tf) entry sp)) pt₀ A₀ f₀ := by
    refine hOld.tree.congr (fun x hx => Vm.word_congr (upd_of_ne (hOutOld x ?_))) fun _ _ => rfl
    rw [← hX]
    exact Multiset.mem_add.mpr (.inl hx)
  rw [wp_bind, wp_vm]
  refine Vm.wp_proc_freepagetable hOld.size hOld.space hTree ?_ fun m₂ hMoves₂ => wp_pure.mpr ?_
  · rw [hX]
    exact (hHeld.valid hValid).right
  · rw [hX] at hMoves₂
    have hNodup₁ := (hHeld.valid hValid).nodup
    rw [add_comm _ X] at hNodup₁
    have hKept : ∀ x ∈ A + own f (Ico 0 (n + 2)) + {tf},
        m₂.page x = (s.mem.put tf (startRegs (s.mem.page tf) entry sp)).page x := fun x hx => hMoves₂.cell_eq hNodup₁ hx
    have hSame : ∀ x ∈ A + own f (Ico 0 (n + 2)), m₂.page x = s.mem.page x := fun x hx => by
      rw [hKept x (Multiset.mem_add.mpr (.inl hx)), Vm.Mem.put_page, upd_of_ne (hOut x hx)]
    have hProg' : Program L m₂ pt tf n A f img argv sp ustack := by
      refine hProg.congr ?_ fun a => ?_
      · exact hProg.tree.congr (fun x hx => Vm.word_congr (hSame x (Multiset.mem_add.mpr (.inl hx)))) fun _ _ => rfl
      · exact (hProg.space.image hProg.tree hValid.left.left).umem_eq
          (fun x hx => hSame x (Multiset.mem_add.mpr (.inr hx))) a
    refine h _ m₂ hProg' ?_ hPut hMoves₂
    rw [hKept tf (Multiset.mem_add.mpr (.inr (Multiset.mem_singleton_self tf))), Vm.Mem.put_page, upd_self]

theorem wp_execStack (hOld : Owner L s.mem (s.proc p) pt₀ tf A₀ f₀)
    (hLoad : Loading L s.mem pt tf sz A f img)
    (hValid : Valid L (A + own f (Ico 0 (npages sz)) + {tf} + (A₀ + own f₀ (Ico 0 (npages (s.proc p).sz)))) s.mem)
    (hLen : ∀ s ∈ argv, s.length < PGSIZE)
    (hFail : ∀ m', pool.Moves (A + own f (Ico 0 (npages sz))) 0 s.mem m' → Q (-1) { s with mem := m' })
    (hOk : ∀ m₁ m' A' f' sp ustack, Program L m' pt tf (npages sz) A' f' img argv sp ustack →
      m'.page tf = startRegs (s.mem.page tf) entry sp →
      pool.Moves (A + own f (Ico 0 (npages sz)) + {tf}) (A' + own f' (Ico 0 (npages sz + 2)) + {tf}) s.mem m₁ →
      pool.Moves (A₀ + own f₀ (Ico 0 (npages (s.proc p).sz))) 0 m₁ m' →
      Q argv.length { s with
        mem := m', proc := upd s.proc p ((s.proc p).execed pt ((npages sz + 2) * PGSIZE) path) }) :
    wp F (execStack L p pt sz entry path argv) Q s := by
  have hN := Vm.npages_limit
  have hLe := hLoad.space.le
  generalize hX : A₀ + own f₀ (Ico 0 (npages (s.proc p).sz)) = X at hValid hOk
  generalize hn : npages sz = n at *
  have hSpace := hLoad.space
  rw [hn] at hSpace
  have hPages : npages (n * PGSIZE) = n := Vm.npages_mul (by omega)
  have hLoad₀ : Loading L s.mem pt tf (n * PGSIZE) A f img := by
    refine ⟨?_, hLoad.tree, ?_, ?_, ?_⟩
    · unfold PGSIZE
      omega
    · rwa [hPages]
    · rw [hPages, ← hn]
      exact hLoad.bytes
    · rw [hPages, ← hn]
      exact hLoad.zero
  have hSum : u64 (n * PGSIZE + 2 * PGSIZE) = (n + 2) * PGSIZE := by
    unfold u64 PGSIZE
    omega
  rw [execStack, wp_bind, wp_proc]
  dsimp only
  rw [Vm.pgroundup_eq, hn, hSum, wp_bind, wp_vm]
  refine Vm.wp_uvmalloc_space hLoad₀.size hLoad₀.space hLoad.tree (by rw [hPages]; exact hValid.left.left)
    (fun hBad => ?_) (fun m₁ A₁ hTree₁ hMoves₁ => ?_) fun m₁ A₁ f₁ hMore hLt hTree₁ hSpace₁ hMap hFresh hMoves₁ hOwn => ?_
  · unfold PGSIZE at hBad
    omega
  · rw [if_pos rfl, wp_bind, wp_vm]
    have hMoves₁' := hMoves₁.add (own f (Ico 0 n))
    refine Vm.wp_proc_freepagetable hLoad₀.size hLoad₀.space hTree₁ ?_ fun m₂ hMoves₂ => wp_pure.mpr ?_
    · rw [hPages]
      exact hMoves₁'.valid hValid.left.left
    · rw [hPages] at hMoves₂
      exact hFail m₂ (hMoves₁'.trans hMoves₂)
  · have hPages₂ : npages ((n + 2) * PGSIZE) = n + 2 := Vm.npages_mul (by omega)
    have hLoad₁ := hLoad₀.grow (by rw [hPages]; exact hValid.left.left) hMore hLt hTree₁ hSpace₁ hMap hFresh hMoves₁
    rw [hPages, hPages₂] at hOwn hMoves₁ hFresh
    rw [hPages₂] at hSpace₁
    -- the pages of the new image so far
    have hNew₁ : pool.Moves (A + own f (Ico 0 n)) (A₁ + own f₁ (Ico 0 (n + 2))) s.mem m₁ := by
      rw [hOwn, add_comm (own f _), ← add_assoc]
      exact hMoves₁.add _
    have hPos : (n + 2) * PGSIZE ≠ 0 := by
      unfold PGSIZE
      omega
    have hLow : (n + 2) * PGSIZE - 2 * PGSIZE = n * PGSIZE := by
      rw [Nat.add_mul, Nat.add_sub_cancel]
    rw [if_neg hPos, hLow]
    refine wp_buildStack hLoad₁ ((hNew₁.valid hValid.left.left)) hSpace₁.le (hFresh n le_rfl (by omega)) hLen
      fun r m₂ f₂ hTree₂ hSpace₂ hMoves₂ hProg => ?_
    have hNew₂ := hNew₁.trans hMoves₂
    have hValid₂ := ((hNew₂.add {tf}).add X).valid hValid
    cases r with
    | none =>
      rw [wp_bind, wp_vm]
      refine Vm.wp_proc_freepagetable hLt (by rwa [hPages₂]) hTree₂ (by rw [hPages₂]; exact hValid₂.left.left)
        fun m₃ hMoves₃ => wp_pure.mpr ?_
      rw [hPages₂] at hMoves₃
      exact hFail m₃ (hNew₂.trans hMoves₃)
    | some sp =>
      obtain ⟨ustack, hProg⟩ := hProg sp rfl
      have hKept : ∀ x ∈ {tf} + X, m₂.page x = s.mem.page x := fun x hx => by
        refine hNew₂.cell_eq ?_ hx
        rw [← add_assoc (A + _)]
        exact hValid.nodup
      have hTf : m₂.page tf = s.mem.page tf := hKept tf (Multiset.mem_add.mpr (.inl (Multiset.mem_singleton_self tf)))
      have hOld₂ : Owner L m₂ (s.proc p) pt₀ tf A₀ f₀ := hOld.congr fun x hx => hKept x (by
        rw [← hX]
        exact Multiset.mem_add.mpr (.inr (Multiset.mem_add.mpr (.inl hx))))
      refine wp_commit (s := { s with mem := m₂ }) hOld₂ hProg (by rw [hX]; exact hValid₂)
        fun m₃ m₄ hProg₄ hRegs hMoves₃ hMoves₄ => ?_
      rw [hX] at hMoves₄
      refine hOk m₃ m₄ A₁ f₂ sp ustack hProg₄ (by rw [hRegs, hTf]) ?_ hMoves₄
      exact (hNew₂.add {tf}).trans (hMoves₃.add_left _)

/-! ## exec -/

variable {Φ : Fs.Core → Prop} {G : (Nat → Nat → List UInt8 → Prop) → Prop}

/-- What `exec` needs of the file system once `namei` has returned `r`: an inode can be locked, gives bytes `Got` when it is
read, and when it is let go of `Φ` holds. -/
def Opened (F : Panic → Prop) (Φ : Fs.Core → Prop) (G : (Nat → Nat → List UInt8 → Prop) → Prop) (r : Option Nat)
    (c : Fs.Core) : Prop :=
  match r with
  | none => Φ c
  | some ip => ∃ Φ' Got, G Got ∧ Source F Φ' ip Got ∧ wp (fun e => F (.fs e)) (Fs.ilock ip) (fun _ c' => Φ' c') c ∧
      ∀ c', Φ' c' → wp (fun e => F (.fs e)) (Fs.iunlockput ip) (fun _ c'' => Φ c'') c'

/-- The file with the ELF header `elf` describes the memory `img`. -/
structure Elf (Got : Nat → Nat → List UInt8 → Prop) (elf : List UInt8) (img : Nat → UInt8) : Prop where
  read   : Got 0 64 elf
  length : elf.length = 64
  magic  : bytesAt elf 0 4 = ELF_MAGIC
  loads  : Loads Got (bytesAt elf 56 2) (bytesAt elf 32 8 % 2 ^ 32) (fun _ => 0) img

/-- From `m` to `m'` a process with the trapframe `tf` has exchanged its pages `X` for a new image. -/
structure Replaced (L : Layout) (tf : Nat) (X : Multiset Nat) (entry : Nat) (img : Nat → UInt8) (argv : List (List UInt8))
    (m m' : Mem) (pt n sp : Nat) (A : Multiset Nat) (f : Nat → Option Pte) (ustack : List Nat) : Prop where
  program : Program L m' pt tf n A f img argv sp ustack
  regs    : m'.page tf = startRegs (m.page tf) entry sp
  moves   : pool.Moves ({tf} + X) (A + own f (Ico 0 (n + 2)) + {tf}) m m'
  taken   : A + own f (Ico 0 (n + 2)) ≤ pool.free m

theorem Replaced.npages {X : Multiset Nat} {pt : Nat}
    (h : Replaced L tf X entry img argv m m' pt n sp A f ustack) : npages ((n + 2) * PGSIZE) = n + 2 := by
  have hN := Vm.npages_limit
  have hLe := h.program.space.le
  exact Vm.npages_mul (by omega)

/-- The process owns the new image. -/
theorem Replaced.owner {X : Multiset Nat} {pt : Nat} {pr : Proc} (h : Replaced L tf X entry img argv m m' pt n sp A f ustack) (hTf : pr.trapframe = some tf) :
    Owner L m' (pr.execed pt ((n + 2) * PGSIZE) path) pt tf A f := by
  have hN := Vm.npages_limit
  have hLe := h.program.space.le
  refine ⟨rfl, hTf, ?_, h.program.tree, ?_⟩
  · show (n + 2) * PGSIZE < 2 ^ 63
    unfold PGSIZE
    omega
  · show Space L f (Vm.npages ((n + 2) * PGSIZE)) tf
    rw [h.npages]
    exact h.program.space

theorem wp_exec {cwd : Nat} (hOld : Owner L s.mem (s.proc p) pt₀ tf A₀ f₀) (hCwd : (s.proc p).cwd = some cwd)
    (hValid : Valid L ({tf} + (A₀ + own f₀ (Ico 0 (npages (s.proc p).sz)))) s.mem) (hLen : ∀ s ∈ argv, s.length < PGSIZE)
    (hOpen : wp (fun e => F (.fs e)) (Fs.namei cwd path) (Opened F Φ G) s.core)
    (hFail : ∀ c' m', Φ c' → pool.Moves 0 0 s.mem m' → Q (-1) { s with core := c', mem := m' })
    (hOk : ∀ c' m' Got elf img pt n sp A f ustack, Φ c' → G Got → Elf Got elf img →
      Replaced L tf (A₀ + own f₀ (Ico 0 (npages (s.proc p).sz))) (bytesAt elf 24 8) img argv s.mem m' pt n sp A f ustack →
      Q argv.length { s with
        core := c', mem := m', proc := upd s.proc p ((s.proc p).execed pt ((n + 2) * PGSIZE) path) }) :
    wp F (exec L p path argv) Q s := by
  generalize hX : A₀ + own f₀ (Ico 0 (npages (s.proc p).sz)) = X at hValid hOk
  have hCount : s.outstanding + 1 - 1 = s.outstanding := Int.add_sub_cancel ..
  rw [exec, wp_bind, wp_beginOp, wp_bind, wp_proc, hCwd, wp_bind, wp_deref, wp_bind, wp_fs]
  refine hOpen.mono fun r c₁ hOpened => ?_
  cases r with
  | none =>
    rw [wp_bind, wp_endOp, wp_pure]
    dsimp only
    rw [hCount]
    exact hFail c₁ s.mem hOpened (.refl 0 _)
  | some ip =>
    obtain ⟨Φ', Got, hG, hSrc, hLock, hPut⟩ := hOpened
    rw [wp_bind, wp_fs]
    refine hLock.mono fun _ c₂ hΦ₂ => ?_
    rw [wp_bind, wp_fs]
    refine (hSrc.read _ _ _ hΦ₂).mono fun r c₃ hRead => ?_
    obtain ⟨hΦ₃, hElf⟩ := hRead
    dsimp only
    generalize r.getD [] = elf at hElf ⊢
    -- every failure from here on ends with these steps
    have hGiveUp : ∀ c m', Φ' c → pool.Moves 0 0 s.mem m' →
        wp F (do
          fs (Fs.iunlockput ip)
          endOp
          return -1) Q { s with outstanding := s.outstanding + 1, core := c, mem := m' } := fun c m' hΦ hMoves => by
      rw [wp_bind, wp_fs]
      refine (hPut c hΦ).mono fun _ c' hc' => ?_
      rw [wp_bind, wp_endOp, wp_pure]
      dsimp only
      rw [hCount]
      exact hFail c' m' hc' hMoves
    rw [wp_ite]
    refine ⟨fun _ => hGiveUp c₃ s.mem hΦ₃ (.refl 0 _), fun hMagic => ?_⟩
    rw [not_or, not_not, not_not] at hMagic
    rw [wp_bind, wp_proc]
    dsimp only
    rw [hOld.trapframe, wp_bind, wp_deref, wp_bind, wp_vm]
    refine Vm.wp_proc_pagetable hValid.zero (fun m₁ hMoves₁ => hGiveUp c₃ m₁ hΦ₃ hMoves₁)
      fun pt m₁ A₁ f₁ hTree₁ hSpace₁ hMoves₁ => ?_
    have hEmpty : A₁ + own f₁ (Ico 0 (npages 0)) = A₁ := by
      rw [show npages 0 = 0 from rfl, Ico_self, Vm.own_empty, add_zero]
    have hLoad : Loading L m₁ pt tf 0 A₁ f₁ fun _ => 0 :=
      ⟨by omega, hTree₁, hSpace₁, fun a ha => absurd ha (Nat.not_lt_zero a), fun _ _ => rfl⟩
    have hHeld₁ := hMoves₁.add ({tf} + X)
    rw [zero_add] at hHeld₁
    rw [wp_bind]
    refine wp_loadProgram (s := { s with outstanding := s.outstanding + 1, core := c₃, mem := m₁ }) hSrc hΦ₃ hLoad
      (by rw [hEmpty]; exact (hHeld₁.valid hValid).left) fun r sz c₄ m₂ A₂ f₂ img hΦ₄ hLoad₂ hMoves₂ hAll => ?_
    rw [hEmpty] at hMoves₂
    have hNew := hMoves₁.trans hMoves₂
    have hHeld₂ := hNew.add ({tf} + X)
    rw [zero_add] at hHeld₂
    have hValid₂ := hHeld₂.valid hValid
    cases r with
    | false =>
      dsimp only
      rw [wp_bind, wp_vm]
      refine Vm.wp_proc_freepagetable hLoad₂.size hLoad₂.space hLoad₂.tree hValid₂.left fun m₃ hMoves₃ => ?_
      exact hGiveUp c₄ m₃ hΦ₄ (hNew.trans hMoves₃)
    | true =>
      dsimp only
      rw [wp_bind, wp_fs]
      refine (hPut c₄ hΦ₄).mono fun _ c₅ hΦ₅ => ?_
      rw [wp_bind, wp_endOp]
      dsimp only
      rw [hCount]
      have hKept : ∀ x ∈ {tf} + X, m₂.page x = s.mem.page x := fun x hx => by
        refine hNew.cell_eq ?_ hx
        rw [zero_add]
        exact hValid.nodup
      have hTf : m₂.page tf = s.mem.page tf := hKept tf (Multiset.mem_add.mpr (.inl (Multiset.mem_singleton_self tf)))
      have hOld₂ : Owner L m₂ (s.proc p) pt₀ tf A₀ f₀ := hOld.congr fun x hx => hKept x (by
        rw [← hX]
        exact Multiset.mem_add.mpr (.inr (Multiset.mem_add.mpr (.inl hx))))
      refine wp_execStack (s := { s with core := c₅, mem := m₂ }) hOld₂ hLoad₂ (by rw [hX, add_assoc]; exact hValid₂) hLen
        (fun m₃ hMoves₃ => hFail c₅ m₃ hΦ₅ (hNew.trans hMoves₃))
        fun m₃ m₄ A₃ f₃ sp ustack hProg hRegs hMoves₃ hMoves₄ => ?_
      rw [hX] at hMoves₄
      have hTaken := hNew.add {tf}
      rw [zero_add] at hTaken
      replace hTaken := hTaken.trans hMoves₃
      refine hOk c₅ m₄ Got elf img pt (npages sz) sp A₃ f₃ ustack hΦ₅ hG ⟨hElf, hMagic.1, hMagic.2, hAll rfl⟩
        ⟨hProg, by rw [hRegs, hTf], ?_, ?_⟩
      · have hFreed := hMoves₄.add_left (A₃ + own f₃ (Ico 0 (npages sz + 2)) + {tf})
        rw [add_zero] at hFreed
        exact (hTaken.add X).trans hFreed
      · have hFree := hTaken.conserve
        rw [← add_assoc] at hFree
        rw [← Multiset.add_left_inj.mp hFree]
        exact Multiset.le_add_left _ _

/-! ## sys_exec -/

/-- The strings `argv` are what `sys_exec` makes of the arguments `args`. -/
structure Accepted (args : Nat → Arg) (argv : List (List UInt8)) : Prop where
  strings : ∀ i s, argv[i]? = some s → ∃ t, args i = .str t ∧ s = t.takeWhile (· ≠ 0)
  null    : args argv.length = .null
  count   : argv.length < MAXARG
  short   : ∀ s ∈ argv, s.length < PGSIZE

theorem wp_fetchArgs {args : Nat → Arg} {k i : Nat} {pages : List Nat}
    {Q : List Nat × Option (List (List UInt8)) → State → Prop} (hi : i = argv.length) (hk : argv.length + k = MAXARG)
    (hStrings : ∀ i s, argv[i]? = some s → ∃ t, args i = .str t ∧ s = t.takeWhile (· ≠ 0))
    (hShort : ∀ s ∈ argv, s.length < PGSIZE) (hValid : Valid L pages s.mem)
    (h : ∀ r (pages' : List Nat) m', pool.Moves pages pages' s.mem m' → (∀ l, r = some l → Accepted args l) →
      Q (pages', r) { s with mem := m' }) :
    wp F (fetchArgs args k i pages argv) Q s := by
  subst hi
  induction k generalizing s pages argv with
  | zero => exact wp_pure.mpr (h none pages s.mem (.refl _ _) nofun)
  | succ k ih =>
    -- a page is added to those taken before
    have hAdd : ∀ x m', pool.Moves 0 {x} s.mem m' → pool.Moves pages ↑(pages ++ [x]) s.mem m' := fun x m' hMoves => by
      have hHeld := hMoves.add_left (pages : Multiset Nat)
      rwa [add_zero, ← Multiset.coe_singleton, Multiset.coe_add] at hHeld
    rw [fetchArgs]
    cases hArg : args argv.length with
    | badAddr => exact wp_pure.mpr (h none pages s.mem (.refl _ _) nofun)
    | null =>
      refine wp_pure.mpr (h (some argv) pages s.mem (.refl _ _) fun l hl => ?_)
      cases hl
      exact ⟨hStrings, hArg, by omega, hShort⟩
    | badStr =>
      dsimp only
      rw [wp_bind, wp_vm]
      refine Vm.wp_kalloc (wp_pure.mpr (h none pages s.mem (.refl _ _) nofun)) fun x m' hMoves _ => ?_
      exact wp_pure.mpr (h none _ m' (hAdd x m' hMoves) nofun)
    | str t =>
      dsimp only
      rw [wp_bind, wp_vm]
      refine Vm.wp_kalloc (wp_pure.mpr (h none pages s.mem (.refl _ _) nofun)) fun x m' hMoves _ => ?_
      dsimp only
      rw [wp_ite]
      refine ⟨fun hFits => ?_, fun _ => wp_pure.mpr (h none _ m' (hAdd x m' hMoves) nofun)⟩
      rw [wp_bind, wp_vm, Vm.putBytes, Vm.wp_store]
      have hPut : pool.Moves ↑(pages ++ [x]) ↑(pages ++ [x]) m' (m'.put x (ByteBuf.poke (m'.page x) 0
          (t.takeWhile (· ≠ 0) ++ [0]).length fun j => (t.takeWhile (· ≠ 0) ++ [0]).getD j 0)) :=
        Vm.moves_store (by simp)
      have hAll := (hAdd x m' hMoves).trans hPut
      have hLen : argv.length + 1 = (argv ++ [t.takeWhile (· ≠ 0)]).length := by
        rw [List.length_append, List.length_singleton]
      rw [hLen]
      refine ih (by omega) (fun i s' hs' => ?_) (fun s' hs' => ?_) (hAll.valid hValid)
        fun r pages' m₂ hMoves₂ hr => h r pages' m₂ (hAll.trans hMoves₂) hr
      · rw [List.getElem?_append] at hs'
        split at hs'
        · exact hStrings i s' hs'
        · rename_i hi
          obtain ⟨hLast, rfl⟩ := List.getElem?_eq_some_iff.mp hs'
          rw [List.length_singleton] at hLast
          obtain rfl : i = argv.length := by omega
          exact ⟨t, hArg, List.getElem_singleton _⟩
      · rcases List.mem_append.mp hs' with hOld | hNew
        · exact hShort s' hOld
        · rw [List.mem_singleton.mp hNew]
          exact hFits

theorem wp_freePages {pages : List Nat} {Q : Unit → State → Prop} (hValid : Valid L pages s.mem)
    (h : ∀ m', pool.Moves pages 0 s.mem m' → Q () { s with mem := m' }) :
    wp F (pages.forM fun x => vm (Vm.kfree L x)) Q s := by
  induction pages generalizing s with
  | nil => exact wp_pure.mpr (h s.mem (.refl 0 _))
  | cons x pages ih =>
    rw [List.forM_eq_forM, List.forM_cons, wp_bind, wp_vm]
    refine Vm.wp_kfree (hValid.ok_of_mem (by simp)) fun m₁ hMoves₁ => ?_
    have hHeld := hMoves₁.add (pages : Multiset Nat)
    rw [zero_add, Multiset.singleton_add, Multiset.cons_coe] at hHeld
    exact ih (s := { s with mem := m₁ }) (hHeld.valid hValid) fun m₂ hMoves₂ => h m₂ (hHeld.trans hMoves₂)

/-- Pages that are held from before until after an image is exchanged make no difference. -/
theorem Replaced.pages {X P : Multiset Nat} {pt : Nat} {m₀ m₁ m₂ m₃ : Mem}
    (h : Replaced L tf X entry img argv m₁ m₂ pt n sp A f ustack) (hTf : m₁.page tf = m₀.page tf)
    (hBefore : pool.Moves 0 P m₀ m₁) (hAfter : pool.Moves P 0 m₂ m₃)
    (hValid : Valid L (P + (A + own f (Ico 0 (n + 2)) + {tf})) m₂) :
    Replaced L tf X entry img argv m₀ m₃ pt n sp A f ustack := by
  have hKept : ∀ x ∈ A + own f (Ico 0 (n + 2)) + {tf}, m₃.page x = m₂.page x := fun x hx =>
    hAfter.cell_eq hValid.nodup hx
  have hImage : ∀ x ∈ A + own f (Ico 0 (n + 2)), m₃.page x = m₂.page x := fun x hx =>
    hKept x (Multiset.mem_add.mpr (.inl hx))
  have hTree := h.program.tree
  refine ⟨h.program.congr ?_ fun a => ?_, ?_, ?_, ?_⟩
  · exact hTree.congr (fun x hx => Vm.word_congr (hImage x (Multiset.mem_add.mpr (.inl hx)))) fun _ _ => rfl
  · exact (h.program.space.image hTree hValid.right.left).umem_eq (fun x hx => hImage x (Multiset.mem_add.mpr (.inr hx))) a
  · rw [hKept tf (Multiset.mem_add.mpr (.inr (Multiset.mem_singleton_self tf))), h.regs, hTf]
  · have hFirst := hBefore.add ({tf} + X)
    have hLast := hAfter.add (A + own f (Ico 0 (n + 2)) + {tf})
    rw [zero_add] at hFirst hLast
    exact hFirst.trans ((h.moves.add_left P).trans hLast)
  · refine h.taken.trans ?_
    have hFree := hBefore.conserve
    rw [add_zero] at hFree
    rw [← hFree]
    exact Multiset.le_add_right _ _

theorem wp_sysExec {cwd : Nat} {path : Option (List UInt8)}
    {args : Nat → Arg} (hOld : Owner L s.mem (s.proc p) pt₀ tf A₀ f₀)
    (hCwd : (s.proc p).cwd = some cwd)
    (hValid : Valid L ({tf} + (A₀ + own f₀ (Ico 0 (npages (s.proc p).sz)))) s.mem) (hStay : Φ s.core)
    (hOpen : ∀ path', argstr path = some path' →
      wp (fun e => F (.fs e)) (Fs.namei cwd path') (Opened F Φ G) s.core)
    (hFail : ∀ c' m', Φ c' → pool.Moves 0 0 s.mem m' → Q (-1) { s with core := c', mem := m' })
    (hOk : ∀ path' argv c' m' Got elf img pt n sp A f ustack, argstr path = some path' → Accepted args argv → Φ c' →
      G Got → Elf Got elf img →
      Replaced L tf (A₀ + own f₀ (Ico 0 (npages (s.proc p).sz))) (bytesAt elf 24 8) img argv s.mem m' pt n sp A f ustack →
      Q argv.length { s with
        core := c', mem := m', proc := upd s.proc p ((s.proc p).execed pt ((n + 2) * PGSIZE) path') }) :
    wp F (sysExec L p path args) Q s := by
  generalize hX : A₀ + own f₀ (Ico 0 (npages (s.proc p).sz)) = X at hValid hOk
  rw [sysExec]
  split
  · exact wp_pure.mpr (hFail s.core s.mem hStay (.refl 0 _))
  · rename_i path' hPath
    rw [wp_bind]
    refine wp_fetchArgs (L := L) List.length_nil.symm (Nat.zero_add _) nofun nofun hValid.zero fun r pages m₁ hMoves₁ hArgs => ?_
    have hHeld₁ := hMoves₁.add ({tf} + X)
    rw [Multiset.coe_nil, zero_add] at hHeld₁
    have hValid₁ := hHeld₁.valid hValid
    cases r with
    | none =>
      rw [wp_bind, wp_pure, wp_bind]
      refine wp_freePages (L := L) hValid₁.left fun m₂ hMoves₂ => wp_pure.mpr ?_
      exact hFail s.core m₂ hStay (hMoves₁.trans hMoves₂)
    | some argv =>
      have hKept : ∀ x ∈ {tf} + X, m₁.page x = s.mem.page x := fun x hx => by
        refine hMoves₁.cell_eq ?_ hx
        rw [Multiset.coe_nil, zero_add]
        exact hValid.nodup
      have hTf : m₁.page tf = s.mem.page tf := hKept tf (Multiset.mem_add.mpr (.inl (Multiset.mem_singleton_self tf)))
      have hOld₁ : Owner L m₁ (s.proc p) pt₀ tf A₀ f₀ := hOld.congr fun x hx => hKept x (by
        rw [← hX]
        exact Multiset.mem_add.mpr (.inr (Multiset.mem_add.mpr (.inl hx))))
      rw [wp_bind]
      refine wp_exec (s := { s with mem := m₁ }) hOld₁ hCwd (by rw [hX]; exact hValid₁.right) (hArgs argv rfl).short
        (hOpen path' hPath) (fun c₂ m₂ hΦ₂ hMoves₂ => ?_)
        fun c₂ m₂ Got elf img pt n sp A f ustack hΦ₂ hG hElf hRep => ?_
      · rw [wp_bind]
        have hHeld₂ := hMoves₂.add (pages : Multiset Nat)
        rw [zero_add] at hHeld₂
        refine wp_freePages (L := L) (hHeld₂.valid hValid₁.left) fun m₃ hMoves₃ => wp_pure.mpr ?_
        exact hFail c₂ m₃ hΦ₂ (hMoves₁.trans (hHeld₂.trans hMoves₃))
      · rw [hX] at hRep
        have hHeld₂ := hRep.moves.add_left (pages : Multiset Nat)
        have hValid₂ := hHeld₂.valid hValid₁
        rw [wp_bind]
        refine wp_freePages (L := L) hValid₂.left fun m₃ hMoves₃ => wp_pure.mpr ?_
        exact hOk path' argv c₂ m₃ Got elf img pt n sp A f ustack hPath (hArgs argv rfl) hΦ₂ hG hElf
          (hRep.pages hTf hMoves₁ hMoves₃ hValid₂)

end Xv6.Sys
