import Xv6.Fs.Content

/-!
# xv6 — writes that stop early

`writei` copies from the user chunk by chunk, straight into the buffers of the cache. When a byte of the source
cannot be read it stops and reports the chunks before. If nothing of the chunk at which it stopped was copied, it
has changed what it reports and nothing else, and every buffer it changed is logged (`Logged`). If a part of that
chunk was copied, the part is in the cache but not in the log: it is seen until the buffer is recycled.
-/

namespace Xv6.Fs

open ByteBuf Hoare

variable {E : Panic → Prop} {c c' c'' : Core} {g : Abs} {r : Ref}

/-! ## Buffers that were changed are logged -/

/-- Every block is as it was, or as it was last logged. -/
def Logged (c c' : Core) : Prop :=
  ∀ b, c'.buf b = c'.disk b ∨ c'.buf b = c.buf b ∧ c'.disk b = c.disk b

theorem Logged.refl (c : Core) : Logged c c := fun _ => .inr ⟨rfl, rfl⟩

theorem Logged.trans (h : Logged c c') (h' : Logged c' c'') : Logged c c'' := by
  intro b
  rcases h' b with hEq | ⟨hBuf, hDisk⟩
  · exact .inl hEq
  · rw [hBuf, hDisk]
    exact h b

theorem Logged.put (c : Core) (b : Nat) (v : Block) : Logged c (c.put b v) := by
  intro x
  by_cases hx : x = b
  · subst hx
    rw [Core.put_buf, Core.put_disk, upd_self, upd_self]
    exact .inl rfl
  · rw [Core.put_buf, Core.put_disk, upd_of_ne hx, upd_of_ne hx]
    exact .inr ⟨rfl, rfl⟩

/-- A block that was as logged is so again. -/
theorem Logged.clean (h : Logged c c') {b : Nat} (hb : c.buf b = c.disk b) : c'.buf b = c'.disk b := by
  rcases h b with hEq | ⟨hBuf, hDisk⟩
  · exact hEq
  · rw [hBuf, hDisk, hb]

/-- Recycling the buffer of a block that is as logged changes nothing. -/
theorem evict_clean {b : Nat} (hb : c.buf b = c.disk b) {Q : Unit → Core → Prop} (hQ : Q () c) :
    wp E (evict b) Q c := by
  refine wp_modify.mpr ?_
  show Q () { c with buf := upd c.buf b (c.disk b) }
  rw [← hb, upd_eta]
  exact hQ

theorem ballocFrom_logged (fuel b : Nat) : wp (fun _ => True) (ballocFrom fuel b) (fun _ c' => Logged c c') c := by
  induction fuel generalizing b with
  | zero => exact wp_throw.mpr trivial
  | succ fuel ih =>
    rw [ballocFrom, wp_bind, wp_get, wp_ite]
    refine ⟨fun _ => ?_, fun _ => wp_throw.mpr trivial⟩
    rw [wp_bind, wp_bread]
    split
    · rw [wp_update, bzero, wp_bind, wp_update_last]
      exact wp_pure.mpr (.trans (.put _ _ _) (.put _ _ _))
    · exact ih _

theorem balloc_logged : wp (fun _ => True) balloc (fun _ c' => Logged c c') c := by
  rw [balloc, wp_bind, wp_get]
  exact ballocFrom_logged ..

theorem bmapSlot_logged (k : Nat) (j : Fin (NDIRECT + 1)) :
    wp (fun _ => True) (bmapSlot k j) (fun _ c' => Logged c c') c := by
  rw [bmapSlot, wp_bind, wp_inode, wp_ite]
  refine ⟨fun _ => ?_, fun _ => wp_pure.mpr (.refl c)⟩
  rw [wp_bind]
  refine balloc_logged.mono fun b c₁ h₁ => ?_
  rw [wp_bind, wp_setDin, wp_pure]
  exact h₁

theorem bmapEntry_logged (ind j : Nat) : wp (fun _ => True) (bmapEntry ind j) (fun _ c' => Logged c c') c := by
  rw [bmapEntry, wp_bind, wp_bread, wp_ite]
  refine ⟨fun _ => ?_, fun _ => wp_pure.mpr (.refl c)⟩
  rw [wp_bind]
  refine balloc_logged.mono fun b c₁ h₁ => ?_
  rw [wp_update, wp_pure]
  exact h₁.trans (.put _ _ _)

theorem bmap_logged (k bn : Nat) : wp (fun _ => True) (bmap k bn) (fun _ c' => Logged c c') c := by
  unfold bmap
  split
  · exact bmapSlot_logged ..
  · rw [wp_ite]
    refine ⟨fun _ => ?_, fun _ => wp_throw.mpr trivial⟩
    rw [wp_bind]
    exact (bmapSlot_logged ..).mono fun ind c₁ h₁ => (bmapEntry_logged ..).mono fun _ _ h₂ => h₁.trans h₂

theorem iupdate_logged (k : Nat) : wp (fun _ => True) (iupdate k) (fun _ c' => Logged c c') c := by
  rw [iupdate, wp_bind, wp_get, wp_bind, wp_inode, wp_bind, wp_bread, wp_update_last]
  exact .put _ _ _

/-- When nothing of the last chunk is copied, all that was copied is logged. -/
theorem writeiLoop_logged (k : Nat) {src : Nat → Option UInt8} {n fuel tot off : Nat}
    (hWhole : landed off (n - tot) (copied src tot (n - tot)) = copied src tot (n - tot)) :
    wp (fun _ => True) (writeiLoop k src n fuel tot off) (fun _ c' => Logged c c') c := by
  induction fuel generalizing c tot off with
  | zero => exact wp_pure.mpr (.refl c)
  | succ fuel ih =>
    rw [writeiLoop, wp_ite]
    refine ⟨fun hMore => ?_, fun _ => wp_pure.mpr (.refl c)⟩
    generalize hm : min (n - tot) (BSIZE - off % BSIZE) = m
    have hmn : m ≤ n - tot := hm ▸ Nat.min_le_left ..
    rw [wp_bind]
    refine (bmap_logged ..).mono fun b c₁ h₁ => ?_
    rw [wp_bind, wp_bread, wp_bind, wp_setBuf]
    show wp _ (if copied src tot m = m then _ else _) _ _
    rw [wp_ite]
    refine ⟨fun hDone => ?_, fun hPart => ?_⟩
    · rw [wp_bind, wp_logWrite]
      simp only [upd_self]
      rw [copied_add hDone hmn, landed_add hm.symm (copied_le ..)] at hWhole
      have hRest : n - (tot + m) = n - tot - m := by omega
      refine (ih ?_).mono fun _ c' h' => (h₁.trans (.put _ _ _)).trans h'
      rw [hRest]
      exact Nat.add_left_cancel hWhole
    · have hLt : copied src tot m < m := Nat.lt_of_le_of_ne (copied_le src tot m) hPart
      rw [copied_stop hLt hmn, landed_stop hm.symm hLt] at hWhole
      rw [wp_pure, ← hWhole, poke_zero, upd_eta]
      exact h₁

theorem writei_logged (k : Nat) {src : Nat → Option UInt8} {off n : Nat}
    (hWhole : landed off n (copied src 0 n) = copied src 0 n) :
    wp (fun _ => True) (writei k src off n) (fun _ c' => Logged c c') c := by
  rw [writei, wp_bind, wp_inode, wp_ite]
  refine ⟨fun _ => wp_pure.mpr (.refl c), fun _ => ?_⟩
  rw [wp_ite]
  refine ⟨fun _ => wp_pure.mpr (.refl c), fun _ => ?_⟩
  rw [wp_bind]
  refine (writeiLoop_logged k (by rwa [Nat.sub_zero])).mono ?_
  rintro ⟨tot, off'⟩ c₁ h₁
  dsimp only
  rw [wp_bind, wp_inode, wp_bind, wp_when]
  refine ⟨fun _ => ?_, fun _ => ?_⟩
  · rw [wp_setDin, wp_bind]
    exact (iupdate_logged k).mono fun _ c' h' => wp_pure.mpr (h₁.trans h')
  · rw [wp_bind]
    exact (iupdate_logged k).mono fun _ c' h' => wp_pure.mpr (h₁.trans h')

/-! ## What a short write leaves behind -/

/-- The first byte that cannot be read is the first of a chunk. -/
theorem landed_whole {src : Nat → Option UInt8} {off n : Nat}
    (h : ∀ j < n, src j = none → (∀ i < j, (src i).isSome) → j = 0 ∨ (off + j) % BSIZE = 0) :
    landed off n (copied src 0 n) = copied src 0 n := by
  rcases Nat.lt_or_eq_of_le (copied_le src 0 n) with hLt | hEq
  · have hNone := copied_none hLt
    rw [Nat.zero_add] at hNone
    rw [landed, if_neg (Nat.ne_of_lt hLt)]
    rcases h _ hLt hNone fun i hi => Nat.zero_add i ▸ copied_some hi with h0 | h0
    · rw [h0, Nat.zero_sub]
    · rw [h0, Nat.sub_zero]
  · rw [hEq, landed_all]

/-- Recycling buffers that are as logged changes nothing. -/
theorem evict_all {bs : List Nat} (hbs : ∀ b ∈ bs, c.buf b = c.disk b) : wp E (bs.forM evict) (fun _ c' => c' = c) c := by
  refine (wp_forM (fun bs c' => c' = c ∧ ∀ b ∈ bs, c.buf b = c.disk b) ?_ bs ⟨rfl, hbs⟩).mono fun _ _ h => h.1
  rintro b bs c' ⟨rfl, hbs⟩
  exact evict_clean (hbs b List.mem_cons_self) ⟨rfl, fun x hx => hbs x (List.mem_cons_of_mem _ hx)⟩

end Xv6.Fs
