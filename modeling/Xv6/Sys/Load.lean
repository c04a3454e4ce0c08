import Xv6.Sys.Memory
import Xv6.Sys.Stack

/-!
# xv6 — loading a program

How `exec` builds an image: `loadseg` reads the bytes of a segment page by page, and `loadProgram` goes through the
program headers. What is in memory afterwards is told by the bytes that were read (`Loads`).

The file system shows up as what is known of it while the inode is locked, and of the bytes that reading the inode gives
(`Source`), so that the results can be used with much or with nothing known of the disk.
-/

namespace Xv6.Sys

open Hoare Finset
open Vm (Layout Mem Page Pte PgTable PageOk Space Valid Image Stored Touched Fresh pool own npages umem userPte userFlags
  PGSIZE PGROUNDUP u64)

variable {F : Panic → Prop} {L : Layout} {s s' : State} {p pt tf ip : Nat} {A B : Multiset Nat} {f : Nat → Option Pte}
  {Φ : Fs.Core → Prop} {Got : Nat → Nat → List UInt8 → Prop}

/-! ## Segments -/

/-- While `Φ` holds of the file system, reading `n` bytes of the inode `ip` at `off` gives bytes `l` with `Got off n l`. -/
structure Source (F : Panic → Prop) (Φ : Fs.Core → Prop) (ip : Nat) (Got : Nat → Nat → List UInt8 → Prop) : Prop where
  read  : ∀ c off n, Φ c →
    wp (fun e => F (.fs e)) (Fs.readi ip Fs.kernel off n) (fun r c' => Φ c' ∧ Got off n (r.getD [])) c
  short : ∀ off n l, Got off n l → l.length ≤ n

/-- The bytes of a segment from `i` on, as they are read piece by piece. -/
inductive Pieces (Got : Nat → Nat → List UInt8 → Prop) (offset : Nat) : (i : Nat) → List UInt8 → Prop where
  | nil {i : Nat} : Pieces Got offset i []
  | cons {i : Nat} {c l : List UInt8} (hGot : Got ((offset + i) % 2 ^ 32) c.length c)
      (hRest : Pieces Got offset (i + c.length) l) : Pieces Got offset i (c ++ l)

theorem wp_loadLoop {va offset sz fuel i : Nat} {Q : Bool → State → Prop} (hSrc : Source F Φ ip Got) (hΦ : Φ s.core)
    (hImage : Image L s.mem pt A B f) (hva : va % PGSIZE = 0) (hi : i % PGSIZE = 0) (hEnd : i < sz + PGSIZE)
    (hFuel : sz + PGSIZE ≤ i + fuel * PGSIZE) (hsz : sz ≤ 2 ^ 31) (hAcc : Accessible f (va + i) (va + sz))
    (h : ∀ r c' m' l, Φ c' → Stored f (va + i) l s.mem m' → l.length ≤ sz - i →
      (r = true → l.length = sz - i ∧ Pieces Got offset i l) → Q r { s with core := c', mem := m' }) :
    wp F (loadLoop pt va ip offset sz fuel i) Q s := by
  induction fuel generalizing s i with
  | zero => omega
  | succ fuel ih =>
    rw [loadLoop, wp_ite]
    refine ⟨fun hMore => ?_, fun hDone => ?_⟩
    · obtain ⟨w, hw⟩ := Option.isSome_iff_exists.mp (hAcc (va + i) le_rfl (by omega))
      obtain ⟨hv, -⟩ := Vm.userPte_some.mp hw
      have hOk : PageOk L w.pa := hImage.valid.right.ok_of_mem (hImage.within _ _ hw)
      have hPage : (va + i) / PGSIZE * PGSIZE = va + i := Nat.div_mul_cancel (Nat.dvd_of_mod_eq_zero (by
        unfold PGSIZE at *
        omega))
      have hAddr : u64 (va + i) = Vm.PGROUNDDOWN (va + i) := by
        rw [Vm.PGROUNDDOWN, hPage]
        unfold u64 PGSIZE at *
        omega
      rw [hAddr, wp_bind, wp_vm]
      refine Vm.wp_walkaddr_user hImage.tree ?_
      rw [hw, Option.elim_some, if_neg hOk.ne_zero]
      dsimp only
      generalize hn : (if sz - i < PGSIZE then sz - i else PGSIZE) = n
      have hnLe : n ≤ sz - i ∧ n ≤ PGSIZE := by
        rw [← hn]
        split <;> omega
      rw [wp_bind, wp_fs]
      refine (hSrc.read _ _ n hΦ).mono fun r c₁ hRead => ?_
      obtain ⟨hΦ₁, hGot⟩ := hRead
      generalize r.getD [] = l at hGot ⊢
      have hShort := hSrc.short _ _ _ hGot
      rw [wp_bind, wp_vm, Vm.putBytes, Vm.wp_store]
      have hStored := hImage.stored_page (o := 0) (l := l) hw (by omega)
      rw [Nat.add_zero, hPage] at hStored
      rw [wp_ite]
      refine ⟨fun hFull => ?_, fun hNot => ?_⟩
      · by_cases hLast : sz - i < PGSIZE
        · -- the last piece: there is no other turn
          obtain ⟨fuel, rfl⟩ : ∃ k, fuel = k + 1 := Nat.exists_eq_add_one.mpr (by
            unfold PGSIZE at *
            omega)
          rw [if_pos hLast] at hn
          have hPiece : Pieces Got offset i (l ++ []) := .cons (hFull ▸ hGot) .nil
          rw [List.append_nil] at hPiece
          rw [loadLoop, wp_ite]
          refine ⟨fun hBad => ?_, fun _ => wp_pure.mpr (h true c₁ _ l hΦ₁ hStored (by omega) fun _ => ⟨by omega, hPiece⟩)⟩
          unfold PGSIZE at *
          omega
        · rw [if_neg hLast] at hn
          have hNext : (i + PGSIZE) % 2 ^ 32 = i + l.length := by
            unfold PGSIZE at *
            omega
          rw [hNext]
          refine ih hΦ₁ (hStored.touched.image hImage) ?_ ?_ ?_ ?_ fun r' c' m' l' hΦ' hStored' hLe hDone => ?_
          · unfold PGSIZE at *
            omega
          · omega
          · unfold PGSIZE at *
            omega
          · exact fun a ha ha' => hAcc a (by omega) ha'
          · rw [← Nat.add_assoc] at hStored'
            refine h r' c' m' (l ++ l') hΦ' (hStored.trans hStored') ?_ fun hr => ?_
            · rw [List.length_append]
              omega
            · obtain ⟨hLen, hPieces⟩ := hDone hr
              refine ⟨?_, .cons (hFull ▸ hGot) hPieces⟩
              rw [List.length_append]
              omega
      · exact wp_pure.mpr (h false c₁ _ l hΦ₁ hStored (by omega) Bool.noConfusion)
    · exact wp_pure.mpr (h true s.core s.mem [] hΦ (.refl f _ _) (Nat.zero_le _) fun _ => ⟨by simp; omega, .nil⟩)

/-- The bytes `c` laid over `img` at the address `va`. -/
def overlay (img : Nat → UInt8) (va : Nat) (c : List UInt8) (a : Nat) : UInt8 :=
  if va ≤ a ∧ a < va + c.length then c.getD (a - va) 0 else img a

/-! ## The image -/

/-- A program of size `sz` that is being loaded, with the bytes `img` in its memory. -/
structure Loading (L : Layout) (m : Mem) (pt tf sz : Nat) (A : Multiset Nat) (f : Nat → Option Pte) (img : Nat → UInt8) :
    Prop where
  size  : sz < 2 ^ 63
  tree  : PgTable m pt A f
  space : Space L f (npages sz) tf
  bytes : ∀ a < npages sz * PGSIZE, umem m f a = some (img a)
  zero  : ∀ a, npages sz * PGSIZE ≤ a → img a = 0

variable {m m' : Mem} {sz : Nat} {img : Nat → UInt8}

theorem Loading.accessible (h : Loading L m pt tf sz A f img) : Accessible f 0 (npages sz * PGSIZE) := fun a _ ha => by
  have hByte := h.bytes a ha
  rw [umem] at hByte
  cases hPte : userPte f (a / PGSIZE) with
  | none =>
    rw [hPte] at hByte
    cases hByte
  | some w => rfl

theorem Loading.image (h : Loading L m pt tf sz A f img) (hValid : Valid L (A + own f (Ico 0 (npages sz))) m) :
    Image L m pt A (own f (Ico 0 (npages sz))) f :=
  h.space.image h.tree hValid

/-- A segment is stored. -/
theorem Loading.stored {va : Nat} {c : List UInt8} (h : Loading L m pt tf sz A f img)
    (hImage : Image L m pt A (own f (Ico 0 (npages sz))) f) (hStored : Stored f va c m m')
    (hEnd : va + c.length ≤ npages sz * PGSIZE) : Loading L m' pt tf sz A f (overlay img va c) where
  size := h.size
  tree := (hStored.touched.image hImage).tree
  space := h.space
  bytes a ha := by
    rw [hStored.bytes, h.bytes a ha, overlay]
    split
    · rfl
    · rfl
  zero a ha := by rw [overlay, if_neg (by omega), h.zero a ha]

/-- Pages are added at the end. -/
theorem Loading.grow {newsz : Nat} {A' : Multiset Nat} {f' : Nat → Option Pte} (h : Loading L m pt tf sz A f img)
    (hValid : Valid L (A + own f (Ico 0 (npages sz))) m) (hLe : sz ≤ newsz) (hLt : newsz < 2 ^ 63)
    (hTree : PgTable m' pt A' f') (hSpace : Space L f' (npages newsz) tf) (hMap : ∀ u, u < npages sz → f' u = f u)
    (hFresh : ∀ u, npages sz ≤ u → u < npages newsz → Fresh m' f' u) {C : Multiset Nat} (hMoves : pool.Moves A C m m') :
    Loading L m' pt tf newsz A' f' img where
  size := hLt
  tree := hTree
  space := hSpace
  bytes a ha := by
    have hN := Vm.npages_limit
    have hLow := hSpace.le
    have hPage : a / PGSIZE < npages newsz := (Nat.div_lt_iff_lt_mul (by decide)).mpr ha
    by_cases hOld : a / PGSIZE < npages sz
    · have hIn : a / PGSIZE ∈ Ico 0 (npages sz) := mem_Ico.mpr ⟨Nat.zero_le _, hOld⟩
      rw [Vm.umem_congr (hMap _ hOld) fun w hw => hMoves.cell_eq hValid.nodup (Vm.mem_own hIn hw)]
      exact h.bytes a ((Nat.div_lt_iff_lt_mul (by decide)).mp hOld)
    · rw [(hFresh _ (by omega) hPage).umem (by omega),
        h.zero a ((Nat.le_div_iff_mul_le (by decide)).mp (Nat.not_lt.mp hOld))]
  zero a ha := h.zero a (le_trans (Nat.mul_le_mul_right _ (Vm.npages_mono hLe hLt)) ha)

/-! ## Program headers -/

/-- `n` program headers from `off` on turn the memory `img` into `img'`. -/
inductive Loads (Got : Nat → Nat → List UInt8 → Prop) : (n off : Nat) → (img img' : Nat → UInt8) → Prop where
  | done {off : Nat} {img : Nat → UInt8} : Loads Got 0 off img img
  | skip {n off : Nat} {l : List UInt8} {img img' : Nat → UInt8} (hGot : Got off 56 l) (hLen : l.length = 56)
      (hType : (ProgHdr.ofBytes l).type ≠ ELF_PROG_LOAD) (hRest : Loads Got n ((off + 56) % 2 ^ 32) img img') :
      Loads Got (n + 1) off img img'
  | load {n off : Nat} {l c : List UInt8} {img img' : Nat → UInt8} (hGot : Got off 56 l) (hLen : l.length = 56)
      (hType : (ProgHdr.ofBytes l).type = ELF_PROG_LOAD) (hSize : c.length = (ProgHdr.ofBytes l).filesz)
      (hPieces : Pieces Got ((ProgHdr.ofBytes l).off % 2 ^ 32) 0 c)
      (hRest : Loads Got n ((off + 56) % 2 ^ 32) (overlay img (ProgHdr.ofBytes l).vaddr c) img') :
      Loads Got (n + 1) off img img'

theorem wp_loadseg {va offset n : Nat} {Q : Bool → State → Prop} (hSrc : Source F Φ ip Got) (hΦ : Φ s.core)
    (hLoad : Loading L s.mem pt tf sz A f img) (hValid : Valid L (A + own f (Ico 0 (npages sz))) s.mem)
    (hva : va % PGSIZE = 0) (hEnd : va + n ≤ npages sz * PGSIZE)
    (h : ∀ r c' m' c, Φ c' → Loading L m' pt tf sz A f (overlay img va c) →
      pool.Moves (own f (Ico 0 (npages sz))) (own f (Ico 0 (npages sz))) s.mem m' →
      (r = true → c.length = n ∧ Pieces Got offset 0 c) → Q r { s with core := c', mem := m' }) :
    wp F (loadseg pt va ip offset n) Q s := by
  have hN := Vm.npages_limit
  have hLow := hLoad.space.le
  have hImage := hLoad.image hValid
  have hDiv := Nat.div_add_mod n PGSIZE
  have hMod : n % PGSIZE < PGSIZE := Nat.mod_lt _ (by decide)
  refine wp_loadLoop hSrc hΦ hImage hva rfl ?_ ?_ ?_ ?_ fun r c' m' c hΦ' hStored hLe hDone => ?_
  · unfold PGSIZE
    omega
  · unfold PGSIZE at *
    omega
  · unfold PGSIZE at *
    omega
  · exact fun a _ ha => hLoad.accessible a (Nat.zero_le a) (by omega)
  · rw [Nat.add_zero] at hStored
    rw [Nat.sub_zero] at hLe hDone
    exact h r c' m' c hΦ' (hLoad.stored hImage hStored (by omega)) (hStored.touched.moves hImage) hDone

theorem wp_loadProgram {n off : Nat} {Q : Bool × Nat → State → Prop} (hSrc : Source F Φ ip Got) (hΦ : Φ s.core)
    (hLoad : Loading L s.mem pt tf sz A f img) (hValid : Valid L (A + own f (Ico 0 (npages sz))) s.mem)
    (h : ∀ r sz' c' m' A' f' img', Φ c' → Loading L m' pt tf sz' A' f' img' →
      pool.Moves (A + own f (Ico 0 (npages sz))) (A' + own f' (Ico 0 (npages sz'))) s.mem m' →
      (r = true → Loads Got n off img img') → Q (r, sz') { s with core := c', mem := m' }) :
    wp F (loadProgram L ip pt n off sz) Q s := by
  induction n generalizing s off sz A f img with
  | zero => exact wp_pure.mpr (h true sz s.core s.mem A f img hΦ hLoad (.refl _ _) fun _ => .done)
  | succ n ih =>
    rw [loadProgram, wp_bind, wp_fs]
    refine (hSrc.read _ _ _ hΦ).mono fun r c₁ hRead => ?_
    obtain ⟨hΦ₁, hGot⟩ := hRead
    -- a failure here leaves everything as it is
    have hStop : Q (false, sz) { s with core := c₁ } := h false sz c₁ s.mem A f img hΦ₁ hLoad (.refl _ _) nofun
    split
    · exact wp_pure.mpr hStop
    · rename_i l
      replace hGot : Got off 56 l := hGot
      rw [wp_ite]
      refine ⟨fun _ => wp_pure.mpr hStop, fun hLen => ?_⟩
      rw [Decidable.not_not] at hLen
      dsimp only
      rw [wp_ite]
      refine ⟨fun hSkip => ?_, fun hType => ?_⟩
      · exact ih hΦ₁ hLoad hValid fun r' sz' c' m' A' f' img' hΦ' hLoad' hMoves hAll =>
          h r' sz' c' m' A' f' img' hΦ' hLoad' hMoves fun hr => .skip hGot hLen hSkip (hAll hr)
      · rw [Decidable.not_not] at hType
        rw [wp_ite]
        refine ⟨fun _ => wp_pure.mpr hStop, fun hFile => ?_⟩
        rw [wp_ite]
        refine ⟨fun _ => wp_pure.mpr hStop, fun hSum => ?_⟩
        generalize hPh : ProgHdr.ofBytes l = ph at *
        have hVaddr : ph.vaddr < 2 ^ 64 := by
          rw [← hPh]
          exact ByteBuf.le_lt _ _
        have hMemsz : ph.memsz < 2 ^ 64 := by
          rw [← hPh]
          exact ByteBuf.le_lt _ _
        have hNew : u64 (ph.vaddr + ph.memsz) = ph.vaddr + ph.memsz := by
          unfold u64 at *
          omega
        rw [hNew, wp_bind, wp_vm]
        -- the rest, once there is room for the segment
        have hSegment : ∀ sz₁ m₁ A₁ f₁, sz ≤ sz₁ → ph.vaddr + ph.memsz ≤ sz₁ → Loading L m₁ pt tf sz₁ A₁ f₁ img →
            pool.Moves (A + own f (Ico 0 (npages sz))) (A₁ + own f₁ (Ico 0 (npages sz₁))) s.mem m₁ →
            wp F (if sz₁ = 0 then pure (false, sz) else if ph.vaddr % PGSIZE ≠ 0 then pure (false, sz₁) else do
              if ← loadseg pt ph.vaddr ip (ph.off % 2 ^ 32) (ph.filesz % 2 ^ 32) then
                loadProgram L ip pt n ((off + 56) % 2 ^ 32) sz₁
              else pure (false, sz₁)) Q { s with core := c₁, mem := m₁ } :=
          fun sz₁ m₁ A₁ f₁ hMore hFits hLoad₁ hMoves₁ => by
            rw [wp_ite]
            refine ⟨fun hZero => ?_, fun _ => ?_⟩
            · obtain rfl : sz = sz₁ := by omega
              exact wp_pure.mpr (h false sz c₁ m₁ A₁ f₁ img hΦ₁ hLoad₁ hMoves₁ nofun)
            rw [wp_ite]
            refine ⟨fun _ => wp_pure.mpr (h false sz₁ c₁ m₁ A₁ f₁ img hΦ₁ hLoad₁ hMoves₁ nofun), fun hAligned => ?_⟩
            rw [Decidable.not_not] at hAligned
            have hRoom : sz₁ ≤ npages sz₁ * PGSIZE := by
              rw [Vm.npages_eq hLoad₁.size]
              unfold PGSIZE
              omega
            have hLow := hLoad₁.space.le
            have hN := Vm.npages_limit
            have hFilesz : ph.filesz % 2 ^ 32 = ph.filesz := Nat.mod_eq_of_lt (by
              unfold PGSIZE at *
              omega)
            have hValid₁ := hMoves₁.valid hValid
            rw [hFilesz, wp_bind]
            refine wp_loadseg hSrc hΦ₁ hLoad₁ hValid₁ hAligned (by omega)
              fun r c₂ m₂ c hΦ₂ hLoad₂ hMoves₂ hDone => ?_
            replace hMoves₂ := hMoves₁.trans (hMoves₂.add_left A₁)
            rw [wp_ite]
            refine ⟨fun hr => ?_, fun _ => wp_pure.mpr (h false sz₁ c₂ m₂ A₁ f₁ _ hΦ₂ hLoad₂ hMoves₂ nofun)⟩
            obtain ⟨hSize, hPieces⟩ := hDone hr
            refine ih hΦ₂ hLoad₂ (hMoves₂.valid hValid) fun r' sz' c' m' A' f' img' hΦ' hLoad' hMoves' hAll => ?_
            refine h r' sz' c' m' A' f' img' hΦ' hLoad' (hMoves₂.trans hMoves') fun hr' => ?_
            subst hPh
            exact .load hGot hLen hType hSize hPieces (hAll hr')
        refine Vm.wp_uvmalloc_space hLoad.size hLoad.space hLoad.tree hValid (fun hLess => ?_) (fun m' A' hTree' hMoves' => ?_)
          fun m' A' f' hLe hLt hTree' hSpace' hMap hFresh hMoves' hOwn => ?_
        · exact hSegment sz s.mem A f le_rfl (by omega) hLoad (.refl _ _)
        · rw [if_pos rfl, wp_pure]
          have hLoad' := hLoad.grow hValid le_rfl hLoad.size hTree' hLoad.space (fun _ _ => rfl) (fun u hu hu' => by omega)
            hMoves'
          exact h false sz c₁ m' A' f img hΦ₁ hLoad' (hMoves'.add _) nofun
        · have hLoad' := hLoad.grow hValid hLe hLt hTree' hSpace' hMap hFresh hMoves'
          refine hSegment _ m' A' f' hLe le_rfl hLoad' ?_
          rw [hOwn, add_comm (own f _), ← add_assoc]
          exact hMoves'.add _

end Xv6.Sys
