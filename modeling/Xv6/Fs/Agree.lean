import Xv6.Fs.Image
import Xv6.Fs.Path
import Mathlib.Data.List.TakeWhile

/-!
# xv6 — `mkfs` and the kernel agree

The kernel, started on an image that `mkfs` wrote, finds every file under its name and reads the bytes that were
put into it: `namei`, `ilock` and `readi` of the kernel on the blocks, inodes and entries of `mkfs`.
-/

namespace Xv6.Mkfs

open ByteBuf Fs Hoare

/-! ## The root directory -/

theorem slice_dirOf {es : List (List UInt8 × Nat)} {j : Nat} {e : List UInt8 × Nat} (hj : es[j]? = some e) :
    slice (fun o => (dirOf es).getD o 0) (16 * j) 16 = entBytes e.1 e.2 := by
  induction es generalizing j with
  | nil => cases hj
  | cons e' es ih =>
    have hLen := length_entBytes e'.1 e'.2
    cases j with
    | zero =>
      obtain rfl : e' = e := Option.some.inj hj
      have hAll := map_getD_range (entBytes e'.1 e'.2)
      rw [hLen] at hAll
      rw [← hAll]
      refine List.map_congr_left fun i hi => ?_
      show (dirOf (e' :: es)).getD (16 * 0 + i) 0 = _
      rw [Nat.mul_zero, Nat.zero_add, dirOf_cons, List.getD_append _ _ _ _ (by rw [hLen]; exact List.mem_range.mp hi)]
    | succ j =>
      rw [← ih hj]
      refine List.map_congr_left fun i _ => ?_
      show (dirOf (e' :: es)).getD (16 * (j + 1) + i) 0 = (dirOf es).getD (16 * j + i) 0
      rw [dirOf_cons, List.getD_append_right _ _ _ _ (by rw [hLen]; omega), hLen]
      congr 1
      omega

theorem ent_dirOf {n : Node} {es : List (List UInt8 × Nat)} {j : Nat} {e : List UInt8 × Nat}
    (hData : n.data = fun o => (dirOf es).getD o 0) (hj : es[j]? = some e) (hInum : e.2 < 2 ^ 16) :
    ent n j = { inum := e.2, name := key e.1 } := by
  rw [ent, hData, slice_dirOf hj, entBytes, Dirent.ofBytes_toBytes, Nat.mod_eq_of_lt hInum]

theorem strncpy_take (s : List UInt8) (n : Nat) : strncpy (s.take n) n = strncpy s n := by
  induction n generalizing s with
  | zero => rfl
  | succ n ih =>
    cases s with
    | nil => rfl
    | cons a s =>
      rw [List.take_succ_cons, strncpy_succ, strncpy_succ, List.headD_cons, List.headD_cons, List.tail_cons,
        List.tail_cons, ih]

theorem strncpy_nul (s t : List UInt8) (n : Nat) : strncpy (s ++ 0 :: t) n = strncpy s n := by
  induction n generalizing s with
  | zero => rfl
  | succ n ih =>
    cases s with
    | nil => rfl
    | cons a s =>
      rw [List.cons_append, strncpy_succ, strncpy_succ, List.headD_cons, List.headD_cons, List.tail_cons,
        List.tail_cons, ih]

/-- Strings with the same key have the same first bytes. -/
theorem take_of_strncpy {s t : List UInt8} {n : Nat} (hs : 0 ∉ s) (ht : 0 ∉ t) (h : strncpy s n = strncpy t n) :
    s.take n = t.take n := by
  induction n generalizing s t with
  | zero => rfl
  | succ n ih =>
    have hHead := congrArg List.head? h
    rw [head?_strncpy, head?_strncpy, Option.some.injEq] at hHead
    cases s with
    | nil =>
      cases t with
      | nil => rfl
      | cons b t =>
        rw [List.headD_nil, List.headD_cons] at hHead
        exact absurd List.mem_cons_self (hHead ▸ ht)
    | cons a s =>
      cases t with
      | nil =>
        rw [List.headD_nil, List.headD_cons] at hHead
        exact absurd List.mem_cons_self (hHead ▸ hs)
      | cons b t =>
        obtain rfl : a = b := hHead
        have ha : a ≠ 0 := fun h0 => hs (h0 ▸ List.mem_cons_self)
        rw [strncpy_succ, strncpy_succ, List.headD_cons, List.headD_cons, if_pos ha, if_pos ha,
          List.cons.injEq] at h
        rw [List.take_succ_cons, List.take_succ_cons,
          ih (fun h0 => hs (List.mem_cons_of_mem _ h0)) (fun h0 => ht (List.mem_cons_of_mem _ h0)) h.2]

/-- The element of the path `/name`. -/
theorem skipelem_root {name buf : List UInt8} (hne : name ≠ []) (hSlash : slash ∉ name) :
    ∃ buf', skipelem (slash :: name) buf = some ([], buf') ∧ key buf' = key name := by
  have hNo : ∀ b ∈ name, b ≠ slash := fun b hb hEq => hSlash (hEq ▸ hb)
  have hDrop : (slash :: name).dropWhile (· = slash) = name := by
    obtain ⟨b, rest, rfl⟩ := List.exists_cons_of_ne_nil hne
    rw [List.dropWhile_cons_of_pos (by simp), List.dropWhile_cons_of_neg (by simpa using hNo b List.mem_cons_self)]
  have hTake : name.takeWhile (· ≠ slash) = name :=
    List.takeWhile_eq_self_iff.mpr fun b hb => by simpa using hNo b hb
  have hRest : name.dropWhile (· ≠ slash) = [] :=
    List.dropWhile_eq_nil_iff.mpr fun b hb => by simpa using hNo b hb
  refine ⟨if DIRSIZ ≤ name.length then name.take DIRSIZ else name ++ 0 :: buf.drop (name.length + 1), ?_, ?_⟩
  · simp only [skipelem, hDrop, hTake, hRest, if_neg hne, List.dropWhile_nil]
  · split
    · exact strncpy_take ..
    · exact strncpy_nul ..

/-- Entry `j` of the root directory. -/
theorem rootEntries_get {names : List (List UInt8)} {j : Nat} {e : List UInt8 × Nat}
    (h : (rootEntries names)[j]? = some e) :
    j < 2 ∧ (e.1 = dot ∨ e.1 = dotdot) ∧ e.2 = ROOTINO ∨ ∃ k, j = k + 2 ∧ names[k]? = some e.1 ∧ e.2 = k + 2 := by
  match j, h with
  | 0, h =>
    cases h
    exact .inl ⟨by decide, .inl rfl, rfl⟩
  | 1, h =>
    cases h
    exact .inl ⟨by decide, .inr rfl, rfl⟩
  | k + 2, h =>
    have hGet : (names.zipIdx 2)[k]? = some e := h
    rw [List.getElem?_zipIdx, Option.map_eq_some_iff] at hGet
    obtain ⟨s, hs, rfl⟩ := hGet
    exact .inr ⟨k, rfl, hs, Nat.add_comm 2 k⟩

/-- The root directory of the image. -/
abbrev rootNode (names : List (List UInt8)) (v : Finset Nat) : Node :=
  rounded (holding T_DIR (dirOf (rootEntries names)) v)

theorem ent_root {names : List (List UInt8)} {v : Finset Nat} {j : Nat} {e : List UInt8 × Nat}
    (hCount : names.length < 1000) (hj : (rootEntries names)[j]? = some e) :
    ent (rootNode names v) j = { inum := e.2, name := key e.1 } := by
  refine ent_dirOf rfl hj ?_
  rcases rootEntries_get hj with ⟨-, -, hRoot⟩ | ⟨m, -, hm, hInum⟩
  · rw [hRoot]
    decide
  · have := (List.getElem?_eq_some_iff.mp hm).1
    omega

theorem lookup_root {names : List (List UInt8)} {k : Nat} {name buf : List UInt8} (v : Finset Nat)
    (hk : names[k]? = some name) (hCount : names.length < 1000) (hBuf : key buf = key name)
    (hDots : key name ≠ key dot ∧ key name ≠ key dotdot)
    (hOther : ∀ m < k, ∀ s, names[m]? = some s → key s ≠ key name) :
    lookup (rootNode names v) buf = some (k + 2) ∧ (ent (rootNode names v) (k + 2)).inum = k + 2 ∧
      Reached (rootNode names v) (isEntry buf) 0 := by
  have hLt : k < names.length := (List.getElem?_eq_some_iff.mp hk).1
  have hLen : (dirOf (rootEntries names)).length = 16 * (names.length + 2) := by
    rw [length_dirOf, length_rootEntries]
  have hB : BSIZE = 1024 := rfl
  have hSlots : names.length + 2 ≤ (rootNode names v).slots := by
    show names.length + 2 ≤ ((dirOf (rootEntries names)).length / BSIZE + 1) * BSIZE / 16
    rw [hLen, hB]
    omega
  have hEnt : ∀ j e, (rootEntries names)[j]? = some e → ent (rootNode names v) j = { inum := e.2, name := key e.1 } :=
    fun j e => ent_root hCount
  have hGet : (rootEntries names)[k + 2]? = some (name, k + 2) := by
    show (names.zipIdx 2)[k]? = _
    rw [List.getElem?_zipIdx, hk, Option.map_some, Nat.add_comm]
  have hFound := hEnt _ _ hGet
  have hStop : isEntry buf (ent (rootNode names v) (k + 2)) = true := by
    rw [hFound, isEntry, decide_eq_true_eq, namecmp_eq_zero, key_key, hBuf]
    exact ⟨Nat.succ_ne_zero _, rfl⟩
  have hBefore : ∀ j < k + 2, isEntry buf (ent (rootNode names v) j) = false := by
    intro j hj
    obtain ⟨e, he⟩ : ∃ e, (rootEntries names)[j]? = some e :=
      ⟨_, List.getElem?_eq_getElem (by rw [length_rootEntries]; omega)⟩
    rw [hEnt j e he, isEntry, decide_eq_false_iff_not, namecmp_eq_zero, key_key, hBuf]
    rintro ⟨-, hEq⟩
    rcases rootEntries_get he with ⟨-, hDot | hDot, -⟩ | ⟨m, rfl, hm, -⟩
    · exact hDots.1 (hDot ▸ hEq)
    · exact hDots.2 (hDot ▸ hEq)
    · exact hOther m (by omega) _ hm hEq.symm
  refine ⟨find_eq_some.mpr ⟨hStop, Nat.zero_le _, by omega, fun j _ hj => hBefore j hj⟩, by rw [hFound], ?_⟩
  intro i _ _ hNone (hHole : (dirOf (rootEntries names)).length ≤ 16 * i / BSIZE * BSIZE)
  -- the scan ends before it comes to a hole
  have hLe : i ≤ k + 2 := by
    by_contra hgt
    have := hNone (k + 2) (Nat.zero_le _) (by omega)
    rw [hStop] at this
    cases this
  have hMul := Nat.div_mul_le_self (16 * i) BSIZE
  omega

/-! ## The files -/

/-- A name given to `mkfs`, after what it strips: a C string. -/
structure GoodName (s : List UInt8) : Prop where
  string  : 0 ∉ s
  ne_nil  : s ≠ []
  noSlash : slash ∉ s
  ne_dot  : s ≠ dot
  ne_dots : s ≠ dotdot

theorem GoodName.key_ne {s : List UInt8} (h : GoodName s) : key s ≠ key dot ∧ key s ≠ key dotdot := by
  have hShort : ∀ t : List UInt8, 0 ∉ t → t.length < DIRSIZ → key s = key t → s = t := by
    intro t ht hLen hEq
    have hTake := take_of_strncpy h.string ht hEq
    rw [List.take_of_length_le (Nat.le_of_lt hLen)] at hTake
    have hs : s.length ≤ DIRSIZ := by
      have := congrArg List.length hTake
      rw [List.length_take] at this
      omega
    rwa [List.take_of_length_le hs] at hTake
  exact ⟨fun hEq => h.ne_dot (hShort dot (by decide) (by decide) hEq),
    fun hEq => h.ne_dots (hShort dotdot (by decide) (by decide) hEq)⟩

theorem nlink_imageOf (dir : List UInt8) (l : List (List UInt8)) (u : Nat → Finset Nat) (i : Nat)
    (h : ((imageOf dir l u).node i).type ≠ 0) : ((imageOf dir l u).node i).nlink = 1 := by
  by_cases hi : i = ROOTINO
  · rw [hi, imageOf, Abs.setNode_self]
    rfl
  · rw [imageOf, Abs.setNode_of_ne hi] at h ⊢
    cases i with
    | zero => exact absurd rfl h
    | succ i =>
      cases hGet : (dir :: l)[i]? with
      | none => exact absurd (congrArg Node.type (nodeOf_none (List.getElem?_eq_none_iff.mp hGet))) h
      | some b => exact congrArg Node.nlink (nodeOf_some hGet)

/-! ## The image in the kernel's terms -/

theorem nodeOk_filled {B : Disk} {di : Dinode} {n : Node} {p : Prop} (h : NodeOk B di n p)
    (hHoles : ∀ bn, bn * BSIZE < n.size → bn ∉ n.holes) : NodeOk B di { n with holes := ∅ } p :=
  { h with
    free := fun h0 => by rw [h.free h0]; rfl
    mapped := fun bn _ hbn => h.mapped bn (hHoles bn hbn) hbn
    data := fun o ho _ => h.data o ho (hHoles _ (Nat.lt_of_le_of_lt (Nat.div_mul_le_self o BSIZE) ho)) }

/-- The inodes of an image in which no block is missing. -/
def image (names files : List (List UInt8)) (u : Nat → Finset Nat) (i : Nat) : Node :=
  { (imageOf (dirOf (rootEntries names)) files u).node i with holes := ∅ }

theorem image_root (names files : List (List UInt8)) (u : Nat → Finset Nat) :
    image names files u ROOTINO = { rootNode names (u ROOTINO) with holes := ∅ } := by
  rw [image, imageOf, Abs.setNode_self]

theorem image_dir {names files : List (List UInt8)} {u : Nat → Finset Nat} {i : Nat}
    (h : (image names files u i).type = T_DIR) : i = ROOTINO := by
  by_contra hi
  rw [image, imageOf, Abs.setNode_of_ne hi] at h
  replace h : (nodeOf (dirOf (rootEntries names) :: files) u i).type = T_DIR := h
  cases i with
  | zero => exact absurd (show (0 : BitVec 16) = T_DIR from h) (by decide)
  | succ i =>
    cases hGet : (dirOf (rootEntries names) :: files)[i]? with
    | none =>
      rw [nodeOf_none (List.getElem?_eq_none_iff.mp hGet)] at h
      exact absurd (show (0 : BitVec 16) = T_DIR from h) (by decide)
    | some b =>
      have hFile : typeOf i = T_FILE := if_neg fun h0 => hi (by rw [h0])
      rw [nodeOf_some hGet, hFile] at h
      exact absurd (show T_FILE = T_DIR from h) (by decide)

/-- The entries after those of the files are free. -/
theorem ent_root_end {names : List (List UInt8)} {v : Finset Nat} {j : Nat} (hj : names.length + 2 ≤ j) :
    (ent (rootNode names v) j).inum = 0 := by
  have hZero : slice (rootNode names v).data (16 * j) 16 = List.replicate 16 0 := by
    refine List.eq_replicate_iff.mpr ⟨length_slice .., fun b hb => ?_⟩
    obtain ⟨o, -, rfl⟩ := List.mem_map.mp hb
    refine List.getD_eq_default _ _ ?_
    rw [length_dirOf, length_rootEntries]
    omega
  rw [ent, hZero]
  rfl

theorem dirs_image {names files : List (List UInt8)} {u : Nat → Finset Nat} (hCount : names.length < NINODES - 1) :
    Dirs sb (image names files u) where
  holes _ _ := rfl
  range i hType j _ := by
    have hN : NINODES = 200 := rfl
    rw [image_dir hType, image_root]
    show (ent (rootNode names (u ROOTINO)) j).inum < NINODES
    by_cases hj : j < names.length + 2
    · have hGet := List.getElem?_eq_getElem (l := rootEntries names) (i := j) (by rwa [length_rootEntries])
      rw [ent_root (by omega) hGet]
      rcases rootEntries_get hGet with ⟨-, -, hRoot⟩ | ⟨m, -, hm, hInum⟩
      · exact Nat.lt_of_le_of_lt (Nat.le_of_eq hRoot) (by decide)
      · have := (List.getElem?_eq_some_iff.mp hm).1
        exact Nat.lt_of_le_of_lt (Nat.le_of_eq hInum) (by omega)
    · rw [ent_root_end (by omega)]
      decide

/-- What the kernel finds on an image without a hole. -/
theorem image_at {files : List (List UInt8 × List UInt8)} {d : Disk} (hLen : files.length < NINODES - 1)
    (hRun : main files = some d) (hRoot : (files.length + 2) * 16 % BSIZE ≠ 0) :
    ∃ names u D, names.length = files.length ∧ files.map (fun f => shortname f.1) = names.map some ∧
      At sb Set.univ D (image names (files.map Prod.snd) u) 0 ∅ (boot d) := by
  obtain ⟨names, m, u, hCount, hNames, hSound, hBoot⟩ := main_spec hLen hRun
  obtain ⟨D, hRep, -, -⟩ := hSound.rep
  refine ⟨names, u, D, hCount, hNames, ∅, ?_, fun i _ hOrphan => ?_⟩
  · rw [hBoot]
    refine { hRep with
      table := hRep.table.congr rfl rfl rfl
      nodes := fun i hi => nodeOk_filled (hRep.nodes i hi) fun bn hbn => holes_imageOf ?_ hbn }
    rwa [length_dirOf, length_rootEntries, hCount, Nat.mul_comm]
  · have hLink := nlink_imageOf _ _ _ _ hOrphan.1
    exact absurd (hLink.symm.trans hOrphan.2) (by decide)

/-- Every file is found under its name, with its content. -/
theorem namei_file {files : List (List UInt8 × List UInt8)} {d : Disk} (hLen : files.length < NINODES - 1)
    (hRun : main files = some d) (hNames : ∀ f ∈ files, ∀ s, shortname f.1 = some s → GoodName s)
    (hDistinct : (files.map fun f => (shortname f.1).map (·.take DIRSIZ)).Nodup)
    {f : List UInt8 × List UInt8} (hf : f ∈ files) {name : List UInt8} (hName : shortname f.1 = some name)
    (cwd : Nat) :
    wp Never (namei cwd (slash :: name)) (fun ret c₁ => ∃ ip, ret = some ip ∧
      wp Never (ilock ip) (fun _ c₂ => (c₂.itable ip).din.type = T_FILE ∧ (c₂.itable ip).din.nlink = 1 ∧
        (c₂.itable ip).din.size.toNat = f.2.length ∧
        wp Never (readi ip kernel 0 f.2.length) (fun l _ => l = some f.2) c₂) c₁) (boot d) := by
  obtain ⟨names, m, u, hCount, hShort, hSound, hBoot⟩ := main_spec hLen hRun
  obtain ⟨D, hRep, -, -⟩ := hSound.rep
  obtain ⟨k, hk⟩ := List.mem_iff_getElem?.mp hf
  -- the names of `mkfs` by position
  have hGet : ∀ (j : Nat) (s : List UInt8), names[j]? = some s → ∃ g ∈ files, files[j]? = some g ∧ shortname g.1 = some s := by
    intro j s hs
    have hMap := congrArg (fun l : List (Option (List UInt8)) => l[j]?) hShort
    simp only [List.getElem?_map, hs, Option.map_some] at hMap
    obtain ⟨g, hg, hEq⟩ := Option.map_eq_some_iff.mp hMap
    exact ⟨g, List.mem_of_getElem? hg, hg, hEq⟩
  have hkName : names[k]? = some name := by
    have hMap := congrArg (fun l : List (Option (List UInt8)) => l[k]?) hShort
    simp only [List.getElem?_map, hk, Option.map_some, hName] at hMap
    obtain ⟨s, hs, hEq⟩ := Option.map_eq_some_iff.mp hMap.symm
    rw [hs, Option.some.inj hEq]
  have hGood := hNames f hf name hName
  have hOther : ∀ j < k, ∀ s, names[j]? = some s → key s ≠ key name := by
    intro j hj s hs hEq
    obtain ⟨g, hg, hAt, hgs⟩ := hGet j s hs
    have hTake := take_of_strncpy (hNames g hg s hgs).string hGood.string hEq
    have hkLt : k < files.length := (List.getElem?_eq_some_iff.mp hk).1
    refine List.nodup_iff_getElem?_ne_getElem?.mp hDistinct j k hj (by rwa [List.length_map]) ?_
    rw [List.getElem?_map, List.getElem?_map, hAt, hk, Option.map_some, Option.map_some, hgs, hName,
      Option.map_some, Option.map_some, hTake]
  have hN : NINODES = 200 := rfl
  have hkLt : k < names.length := (List.getElem?_eq_some_iff.mp hkName).1
  obtain ⟨buf, hSkip, hKey⟩ : ∃ buf, skipelem (slash :: name) (List.replicate DIRSIZ 0) = some ([], buf) ∧ _ :=
    skipelem_root hGood.ne_nil hGood.noSlash
  obtain ⟨hLookup, hInum, hReached⟩ := lookup_root (u ROOTINO) hkName (by omega) hKey hGood.key_ne hOther
  generalize hImage : imageOf (dirOf (rootEntries names)) (files.map Prod.snd) u = g at hSound hRep
  have hRoot : g.node ROOTINO = rootNode names (u ROOTINO) := by
    rw [← hImage, imageOf, Abs.setNode_self]
  have hFile : g.node (k + 2) = holding T_FILE f.2 (u (k + 2)) := by
    rw [← hImage, imageOf, Abs.setNode_of_ne (by rw [show ROOTINO = 1 from rfl]; omega)]
    refine nodeOf_some (l := dirOf (rootEntries names) :: files.map Prod.snd) ?_
    rw [List.getElem?_cons_succ, List.getElem?_map, hk]
    rfl
  have hLinked : ∀ i, ¬ Orphan (g.node i) := by
    rintro i ⟨hType, hZero⟩
    rw [← hImage] at hType hZero
    rw [nlink_imageOf _ _ _ _ hType] at hZero
    exact absurd hZero (by decide)
  have h₀ : At sb Set.univ D g.node 0 ∅ (boot d) := by
    rw [hBoot]
    refine ⟨∅, ?_, fun i _ hOrphan => absurd hOrphan (hLinked i)⟩
    rw [← hImage] at hRep ⊢
    exact hRep
  rw [← hRoot] at hLookup hInum hReached
  have hWhole : (rootNode names (u ROOTINO)).size % 16 = 0 := by
    show ((dirOf (rootEntries names)).length / BSIZE + 1) * BSIZE % 16 = 0
    rw [show BSIZE = 16 * 64 from rfl, Nat.mul_left_comm, Nat.mul_mod_right]
  have hRange : k + 2 < sb.ninodes := by
    show k + 2 < NINODES
    omega
  refine (namei_root cwd rfl hSkip h₀ (by decide) (by rw [hRoot]; rfl) (by rw [hRoot, hWhole]) hReached hLookup
    (by rw [hInum]; exact hRange) (fun i hi => absurd hi (hLinked i)) (by decide)).mono ?_
  rintro _ c₁ ⟨ip, rfl, h₁⟩
  rw [hInum] at h₁
  have hr : (⟨ip, k + 2⟩ : Ref) ∈ ⟨ip, k + 2⟩ ::ₘ (0 : Multiset Ref) := Multiset.mem_cons_self _ _
  refine ⟨ip, rfl, (ilock_at (r := ⟨ip, k + 2⟩) (h₁.mono Set.sdiff_subset) hr
    (fun hLock => absurd hLock (Finset.notMem_empty _)) fun h0 => ?_).mono ?_⟩
  · rw [show g.node (Ref.inum ⟨ip, k + 2⟩) = _ from hFile] at h0
    exact absurd h0 (show T_FILE ≠ 0 by decide)
  rintro _ c₂ ⟨-, h₂⟩
  have hIn : ip ∈ insert ip (∅ : Finset Nat) := Finset.mem_insert_self _ _
  obtain ⟨hNode, hTyped⟩ := h₂.node hr hIn
  rw [show g.node (Ref.inum ⟨ip, k + 2⟩) = _ from hFile] at hNode
  refine ⟨hNode.type.symm, (hNode.nlink hTyped).symm, (hNode.size hTyped trivial).symm,
    readi_kernel hNode hTyped (fun _ _ _ _ => Set.notMem_empty _) ?_⟩
  -- the whole file is read
  have hAll : readLen (holding T_FILE f.2 (u (k + 2))).size 0 f.2.length = f.2.length := by
    rw [readLen, if_neg (fun hBad => hBad.elim (Nat.not_lt_zero _) (Nat.not_lt_zero _))]
    exact Nat.min_self _
  have hSlice : slice (holding T_FILE f.2 (u (k + 2))).data 0 f.2.length = f.2 := by
    refine Eq.trans (List.map_congr_left fun i _ => ?_) (map_getD_range f.2)
    rw [Nat.zero_add]
    rfl
  rw [hAll, hSlice]

/-- Two files, of which one was given as `user/_b`. -/
theorem namei_file_two : ∃ d, main [([97], [1, 2, 3]), ([117, 115, 101, 114, 47, 95, 98], [4])] = some d ∧
    wp Never (namei 0 [slash, 98]) (fun ret c₁ => ∃ ip, ret = some ip ∧
      wp Never (ilock ip) (fun _ c₂ => (c₂.itable ip).din.type = T_FILE ∧ (c₂.itable ip).din.nlink = 1 ∧
        (c₂.itable ip).din.size.toNat = 1 ∧
        wp Never (readi ip kernel 0 1) (fun l _ => l = some [4]) c₂) c₁) (boot d) := by
  have hSome : (main [([97], [1, 2, 3]), ([117, 115, 101, 114, 47, 95, 98], [4])]).isSome = true := by
    decide +kernel
  obtain ⟨d, hd⟩ := Option.isSome_iff_exists.mp hSome
  refine ⟨d, hd, ?_⟩
  have hGood : GoodName [97] ∧ GoodName [98] := ⟨⟨by decide, by decide, by decide, by decide, by decide⟩,
    ⟨by decide, by decide, by decide, by decide, by decide⟩⟩
  refine namei_file (by decide) hd (fun f hf s hs => ?_) (by decide)
    (f := ([117, 115, 101, 114, 47, 95, 98], [4])) (List.mem_cons_of_mem _ List.mem_cons_self) (by decide) 0
  rcases List.mem_cons.mp hf with rfl | hf
  · obtain rfl : [97] = s := Option.some.inj ((show some [97] = shortname [97] by decide).trans hs)
    exact hGood.1
  · obtain rfl := List.mem_singleton.mp hf
    obtain rfl : [98] = s := Option.some.inj ((show some [98] = shortname _ by decide).trans hs)
    exact hGood.2

end Xv6.Mkfs
