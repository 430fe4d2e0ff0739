import InterBase.SortSpace

namespace InterBase

def Wfs.stop (block : Wfs) : Nat := block.wfsPosition + block.wfsSize

/-- Two pieces have no byte in common. -/
def Wfs.Apart (a b : Wfs) : Prop :=
  ∀ x, a.wfsPosition ≤ x → x < a.stop → b.wfsPosition ≤ x → x < b.stop → False

theorem Wfs.Apart.symm {a b : Wfs} (h : a.Apart b) : b.Apart a :=
  fun x low high low' high' => h x low' high' low high

theorem Wfs.apart_iff {a b : Wfs} (ha : 0 < a.wfsSize) (hb : 0 < b.wfsSize) :
    a.Apart b ↔ a.stop ≤ b.wfsPosition ∨ b.stop ≤ a.wfsPosition := by
  unfold Wfs.Apart Wfs.stop
  constructor
  · intro apart
    by_contra overlap
    refine apart (max a.wfsPosition b.wfsPosition) (Nat.le_max_left _ _) ?_ (Nat.le_max_right _ _) ?_
    · omega
    · omega
  · intro sides x low high low' high'
    omega

/-- A piece of a block is apart from what the block is apart from. -/
theorem Wfs.Apart.piece {a b p : Wfs} (h : a.Apart b) (low : b.wfsPosition ≤ p.wfsPosition)
    (high : p.stop ≤ b.stop) : a.Apart p :=
  fun x hl hh hl' hh' => h x hl hh (low.trans hl') (hh'.trans_le high)

/-- Two pieces that follow each other. -/
theorem Wfs.Apart.join {a b c m : Wfs} (hb : a.Apart b) (hc : a.Apart c)
    (first : m.wfsPosition = b.wfsPosition) (meet : b.stop = c.wfsPosition) (last : m.stop = c.stop) :
    a.Apart m := by
  intro x low high low' high'
  by_cases before : x < b.stop
  · exact hb x low high (first ▸ low') before
  · exact hc x low high (by omega) (last ▸ high')

/-- The free spaces of a work file beside the blocks of it that are in use. -/
structure Sfb.Sound (sfb : Sfb) (blocks : List Wfs) : Prop where
  positive : ∀ space ∈ sfb.sfbFileSpace, 0 < space.wfsSize
  descending : sfb.sfbFileSpace.Pairwise fun space next => next.stop ≤ space.wfsPosition
  inside : ∀ space ∈ sfb.sfbFileSpace, space.stop ≤ sfb.sfbFileSize
  blocksInside : ∀ block ∈ blocks, block.stop ≤ sfb.sfbFileSize
  apart : ∀ space ∈ sfb.sfbFileSpace, ∀ block ∈ blocks, space.Apart block
  blocksApart : blocks.Pairwise Wfs.Apart

/-- A space that may stand between others of a file. -/
structure Sfb.Fits (sfb : Sfb) (blocks before after : List Wfs) (space : Wfs) : Prop where
  positive : 0 < space.wfsSize
  inside : space.stop ≤ sfb.sfbFileSize
  above : ∀ w ∈ before, space.stop ≤ w.wfsPosition
  below : ∀ w ∈ after, w.stop ≤ space.wfsPosition
  apart : ∀ block ∈ blocks, space.Apart block

section

variable {sfb : Sfb} {blocks before after : List Wfs}

theorem Sfb.Sound.sublist {spaces : List Wfs} (h : sfb.Sound blocks)
    (sub : spaces.Sublist sfb.sfbFileSpace) (free : List Wfs) :
    Sfb.Sound { sfb with sfbFileSpace := spaces, sfbFreeWfs := free } blocks where
  positive space hspace := h.positive space (sub.subset hspace)
  descending := h.descending.sublist sub
  inside space hspace := h.inside space (sub.subset hspace)
  blocksInside := h.blocksInside
  apart space hspace := h.apart space (sub.subset hspace)
  blocksApart := h.blocksApart

theorem Sfb.Sound.insert (h : sfb.Sound blocks) (sub : (before ++ after).Sublist sfb.sfbFileSpace)
    {space : Wfs} (fits : sfb.Fits blocks before after space) (free : List Wfs) :
    Sfb.Sound { sfb with sfbFileSpace := before ++ space :: after, sfbFreeWfs := free } blocks := by
  have rest := h.sublist sub free
  have mem : ∀ w, w ∈ before ++ space :: after → w = space ∨ w ∈ before ++ after := by
    intro w hw
    simp only [List.mem_append, List.mem_cons] at hw ⊢
    tauto
  refine ⟨?_, ?_, ?_, h.blocksInside, ?_, h.blocksApart⟩
  · intro w hw
    obtain rfl | hw := mem w hw
    · exact fits.positive
    · exact rest.positive w hw
  · obtain ⟨hbefore, hafter, hboth⟩ := List.pairwise_append.mp rest.descending
    refine List.pairwise_append.mpr ⟨hbefore, List.pairwise_cons.mpr ⟨fits.below, hafter⟩, ?_⟩
    intro w hw next hnext
    obtain rfl | hnext := List.mem_cons.mp hnext
    · exact fits.above w hw
    · exact hboth w hw next hnext
  · intro w hw
    obtain rfl | hw := mem w hw
    · exact fits.inside
    · exact rest.inside w hw
  · intro w hw
    obtain rfl | hw := mem w hw
    · exact fits.apart
    · exact rest.apart w hw

/-- The spaces above a position, and the first one that is not. -/
theorem above_stop (spaces : List Wfs) (stop : Nat) :
    (∀ w ∈ spaces.takeWhile (fun space => stop < space.wfsPosition), stop < w.wfsPosition) ∧
      ∀ space rest, spaces.dropWhile (fun space => stop < space.wfsPosition) = space :: rest →
        space.wfsPosition ≤ stop := by
  constructor
  · intro w hw
    have := List.mem_takeWhile_imp hw
    exact of_decide_eq_true this
  · intro space rest split
    have first := List.head?_dropWhile_not (fun space : Wfs => decide (stop < space.wfsPosition)) spaces
    rw [split] at first
    simpa using first

/-- What is freed goes back to the free spaces of its file. -/
theorem freeFileSpace_sound (h : sfb.Sound blocks) (block : Wfs) (positive : 0 < block.wfsSize)
    (inside : block.stop ≤ sfb.sfbFileSize) (small : sfb.sfbFileSize < 4294967296)
    (free : ∀ space ∈ sfb.sfbFileSpace, space.Apart block)
    (apart : ∀ b ∈ blocks, block.Apart b) :
    (freeFileSpace block.wfsPosition block.wfsSize sfb).Sound blocks := by
  have whole := List.takeWhile_append_dropWhile
    (p := fun space : Wfs => decide (block.stop < space.wfsPosition)) (l := sfb.sfbFileSpace)
  obtain ⟨habove, hfirst⟩ := above_stop sfb.sfbFileSpace block.stop
  have hstop : ulong (block.wfsPosition + block.wfsSize) = block.stop :=
    ulong_of_lt (inside.trans_lt small)
  unfold freeFileSpace
  simp only
  rw [hstop]
  revert whole habove
  generalize sfb.sfbFileSpace.takeWhile (fun space => block.stop < space.wfsPosition) = before
  intro whole habove
  split
  next none =>
    rw [none] at whole
    refine h.insert (whole ▸ List.Sublist.refl _) ⟨positive, inside, ?_, List.forall_mem_nil _, apart⟩ _
    exact fun w hw => (habove w hw).le
  next space rest split =>
    rw [split] at whole
    have low := hfirst space rest split
    have mem : space ∈ sfb.sfbFileSpace := by
      rw [← whole]
      simp
    have memRest : ∀ w ∈ rest, w ∈ sfb.sfbFileSpace := by
      intro w hw
      rw [← whole]
      simp [hw]
    have order := h.descending
    rw [← whole] at order
    obtain ⟨-, hcons, hboth⟩ := List.pairwise_append.mp order
    obtain ⟨hbelow, -⟩ := List.pairwise_cons.mp hcons
    have size := h.positive space mem
    have sides := (Wfs.apart_iff size positive).mp (free space mem)
    have sub : (before ++ rest).Sublist sfb.sfbFileSpace := by
      rw [← whole]
      exact List.Sublist.append_left (List.sublist_cons_self _ _) _
    unfold Wfs.stop at *
    split
    next meet =>
      -- the block ends where the space begins
      refine h.insert sub ⟨by simp only; omega, ?_, ?_, ?_, ?_⟩ _
      · have := h.inside space mem
        unfold Wfs.stop at *
        simp only
        omega
      · intro w hw
        have := hboth w hw space List.mem_cons_self
        unfold Wfs.stop
        simp only
        omega
      · intro w hw
        have lower := hbelow w hw
        have rpos := h.positive w (memRest w hw)
        have rsides := (Wfs.apart_iff rpos positive).mp (free w (memRest w hw))
        unfold Wfs.stop at *
        simp only
        omega
      · intro b hb
        refine (Wfs.Apart.join (apart b hb).symm (h.apart space mem b hb).symm ?_ meet ?_).symm
        · simp only
          omega
        · unfold Wfs.stop
          simp only
          omega
    next =>
      split
      next follows =>
        -- the block begins where the space ends; a space behind both would come first
        have joined : sfb.Fits blocks before rest ⟨space.wfsPosition, space.wfsSize + block.wfsSize⟩ := by
          refine ⟨by simp only; omega, ?_, ?_, ?_, ?_⟩
          · unfold Wfs.stop
            simp only
            omega
          · intro w hw
            have := habove w hw
            unfold Wfs.stop
            simp only
            omega
          · exact hbelow
          · intro b hb
            refine (Wfs.Apart.join (m := ⟨space.wfsPosition, space.wfsSize + block.wfsSize⟩)
              (h.apart space mem b hb).symm (apart b hb).symm rfl follows.symm ?_).symm
            unfold Wfs.stop
            simp only
            omega
        split
        next next' rest' =>
          have lower := hbelow next' List.mem_cons_self
          rw [if_neg (by omega)]
          exact h.insert sub joined _
        next => exact h.insert sub joined _
      next =>
        refine h.insert (whole ▸ List.Sublist.refl _) ⟨positive, inside, ?_, ?_, apart⟩ _
        · exact fun w hw => (habove w hw).le
        · intro w hw
          obtain rfl | hw := List.mem_cons.mp hw
          · unfold Wfs.stop
            omega
          · have lower := hbelow w hw
            unfold Wfs.stop at *
            omega

/-- What is taken from a space is apart from what is left of it, and from all other spaces. -/
theorem takeBlock_sound (h : sfb.Sound blocks) {best : Best} {size : Nat}
    (found : sfb.sfbFileSpace[best.place]? = some best.space) (fits : size ≤ best.space.wfsSize) :
    (sfb.takeBlock size best).Sound
      (⟨best.space.wfsPosition + (best.space.wfsSize - size), size⟩ :: blocks) := by
  obtain ⟨lt, at_place⟩ := List.getElem?_eq_some_iff.mp found
  have mem : best.space ∈ sfb.sfbFileSpace := List.mem_of_getElem? found
  have whole : sfb.sfbFileSpace =
      sfb.sfbFileSpace.take best.place ++ best.space :: sfb.sfbFileSpace.drop (best.place + 1) := by
    rw [← at_place, List.getElem_cons_drop, List.take_append_drop]
  let block : Wfs := ⟨best.space.wfsPosition + (best.space.wfsSize - size), size⟩
  have low : best.space.wfsPosition ≤ block.wfsPosition := Nat.le_add_right _ _
  have high : block.stop = best.space.stop := by
    show best.space.wfsPosition + (best.space.wfsSize - size) + size = _
    unfold Wfs.stop
    omega
  have order := h.descending
  rw [whole] at order
  obtain ⟨-, hcons, hboth⟩ := List.pairwise_append.mp order
  obtain ⟨hbelow, -⟩ := List.pairwise_cons.mp hcons
  have sub : (sfb.sfbFileSpace.take best.place ++ sfb.sfbFileSpace.drop (best.place + 1)).Sublist
      sfb.sfbFileSpace := by
    conv_rhs => rw [whole]
    exact List.Sublist.append_left (List.sublist_cons_self _ _) _
  have others : ∀ w ∈ sfb.sfbFileSpace.take best.place ++ sfb.sfbFileSpace.drop (best.place + 1),
      w.Apart block := by
    intro w hw x hl hh hl' hh'
    obtain hw | hw := List.mem_append.mp hw
    · have := hboth w hw best.space List.mem_cons_self
      omega
    · have := hbelow w hw
      omega
  have inside : ∀ b ∈ block :: blocks, b.stop ≤ sfb.sfbFileSize := by
    intro b hb
    obtain rfl | hb := List.mem_cons.mp hb
    · exact high ▸ h.inside best.space mem
    · exact h.blocksInside b hb
  have blocksApart : (block :: blocks).Pairwise Wfs.Apart := by
    refine List.pairwise_cons.mpr ⟨?_, h.blocksApart⟩
    intro b hb
    exact ((h.apart best.space mem b hb).symm.piece low high.le).symm
  unfold Sfb.takeBlock
  split
  next exactly =>
    rw [List.eraseIdx_eq_take_drop_succ]
    have rest := h.sublist sub (best.space :: sfb.sfbFreeWfs)
    refine ⟨rest.positive, rest.descending, rest.inside, inside, ?_, blocksApart⟩
    intro w hw b hb
    obtain rfl | hb := List.mem_cons.mp hb
    · exact others w hw
    · exact rest.apart w hw b hb
  next bigger =>
    rw [List.set_eq_take_append_cons_drop, if_pos lt]
    have left : sfb.Fits blocks (sfb.sfbFileSpace.take best.place)
        (sfb.sfbFileSpace.drop (best.place + 1))
        { best.space with wfsSize := best.space.wfsSize - size } := by
      refine ⟨by simp only; omega, ?_, ?_, hbelow, ?_⟩
      · have := h.inside best.space mem
        unfold Wfs.stop at *
        simp only
        omega
      · intro w hw
        have := hboth w hw best.space List.mem_cons_self
        unfold Wfs.stop at *
        simp only
        omega
      · intro b hb
        refine (Wfs.Apart.piece (p := ⟨best.space.wfsPosition, best.space.wfsSize - size⟩)
          (h.apart best.space mem b hb).symm (Nat.le_refl _) ?_).symm
        unfold Wfs.stop
        simp only
        omega
    have rest := h.insert sub left sfb.sfbFreeWfs
    refine ⟨rest.positive, rest.descending, rest.inside, inside, ?_, blocksApart⟩
    intro w hw b hb
    obtain rfl | hb := List.mem_cons.mp hb
    · simp only [List.mem_append, List.mem_cons] at hw
      obtain hw | rfl | hw := hw
      · exact others w (List.mem_append_left _ hw)
      · intro x hl hh hl' hh'
        unfold Wfs.stop at hh
        simp only at hh
        have := hl'
        simp only at this
        omega
      · exact others w (List.mem_append_right _ hw)
    · exact rest.apart w hw b hb

/-- A file grows by the block that is taken. -/
theorem Sfb.Sound.extend (h : sfb.Sound blocks) (size : Nat) :
    Sfb.Sound { sfb with sfbFileSize := sfb.sfbFileSize + size }
      (⟨sfb.sfbFileSize, size⟩ :: blocks) := by
  have above : ∀ w : Wfs, w.stop ≤ sfb.sfbFileSize → w.Apart ⟨sfb.sfbFileSize, size⟩ := by
    intro w hw x hl hh hl' hh'
    simp only at hl'
    omega
  refine ⟨h.positive, h.descending, ?_, ?_, ?_, List.pairwise_cons.mpr ⟨?_, h.blocksApart⟩⟩
  · intro w hw
    exact Nat.le_add_right_of_le (h.inside w hw)
  · intro b hb
    obtain rfl | hb := List.mem_cons.mp hb
    · exact Nat.le_refl _
    · exact Nat.le_add_right_of_le (h.blocksInside b hb)
  · intro w hw b hb
    obtain rfl | hb := List.mem_cons.mp hb
    · exact above w (h.inside w hw)
    · exact h.apart w hw b hb
  · intro b hb
    exact (above b (h.blocksInside b hb)).symm

/-- A tail of a block goes from those in use to the free ones. -/
theorem freeTail_sound {block : Wfs} (h : sfb.Sound (before ++ block :: after)) {kept : Nat}
    (tail : kept < block.wfsSize) (small : sfb.sfbFileSize < 4294967296) :
    (freeFileSpace (block.wfsPosition + kept) (block.wfsSize - kept) sfb).Sound
      (before ++ ⟨block.wfsPosition, kept⟩ :: after) := by
  let freed : Wfs := ⟨block.wfsPosition + kept, block.wfsSize - kept⟩
  let left : Wfs := ⟨block.wfsPosition, kept⟩
  have freedLow : block.wfsPosition ≤ freed.wfsPosition := Nat.le_add_right _ _
  have freedHigh : freed.stop ≤ block.stop := by
    show block.wfsPosition + kept + (block.wfsSize - kept) ≤ block.wfsPosition + block.wfsSize
    omega
  have leftHigh : left.stop ≤ block.stop := by
    show block.wfsPosition + kept ≤ block.wfsPosition + block.wfsSize
    omega
  have mem : block ∈ before ++ block :: after := by simp
  have cases : ∀ b, b ∈ before ++ left :: after → b = left ∨ b ∈ before ∨ b ∈ after := by
    intro b hb
    simp only [List.mem_append, List.mem_cons] at hb
    tauto
  obtain ⟨hbefore, hcons, hboth⟩ := List.pairwise_append.mp h.blocksApart
  obtain ⟨hblock, hafter⟩ := List.pairwise_cons.mp hcons
  have cut : sfb.Sound (before ++ left :: after) := by
    refine ⟨h.positive, h.descending, h.inside, ?_, ?_, ?_⟩
    · intro b hb
      obtain rfl | hb | hb := cases b hb
      · exact leftHigh.trans (h.blocksInside block mem)
      · exact h.blocksInside b (by simp [hb])
      · exact h.blocksInside b (by simp [hb])
    · intro w hw b hb
      obtain rfl | hb | hb := cases b hb
      · exact (h.apart w hw block mem).piece (Nat.le_refl _) leftHigh
      · exact h.apart w hw b (by simp [hb])
      · exact h.apart w hw b (by simp [hb])
    · refine List.pairwise_append.mpr ⟨hbefore, List.pairwise_cons.mpr ⟨?_, hafter⟩, ?_⟩
      · intro b hb
        exact (Wfs.Apart.piece (p := left) (hblock b hb).symm (Nat.le_refl _) leftHigh).symm
      · intro b hb c hc
        obtain rfl | hc := List.mem_cons.mp hc
        · exact (hboth b hb block List.mem_cons_self).piece (Nat.le_refl _) leftHigh
        · exact hboth b hb c (List.mem_cons_of_mem _ hc)
  refine freeFileSpace_sound cut freed ?_ ?_ small ?_ ?_
  · show 0 < block.wfsSize - kept
    omega
  · exact freedHigh.trans (h.blocksInside block mem)
  · intro w hw
    exact (h.apart w hw block mem).piece freedLow freedHigh
  · intro b hb
    obtain rfl | hb | hb := cases b hb
    · intro x hl hh hl' hh'
      simp only [freed, left, Wfs.stop] at hl hh hl' hh'
      omega
    · exact ((hboth b hb block List.mem_cons_self).piece freedLow freedHigh).symm
    · exact ((hblock b hb).symm.piece freedLow freedHigh).symm

theorem searchSpaces_found {size file place : Nat} {best : Option Best} {spaces : List Wfs}
    {b : Best} (h : searchSpaces size file place best spaces = some b) :
    best = some b ∨ b.file = file ∧ ∃ k, b.place = place + k ∧ spaces[k]? = some b.space ∧
      size ≤ b.space.wfsSize := by
  induction spaces generalizing place best with
  | nil => exact .inl h
  | cons space rest ih =>
    unfold searchSpaces at h
    simp only at h
    obtain old | ⟨same, k, at_k, found, fits⟩ := ih h
    · split at old
      next better =>
        cases old
        exact .inr ⟨rfl, 0, rfl, rfl, better.1⟩
      next => exact .inl old
    · exact .inr ⟨same, k + 1, by omega, found, fits⟩

theorem searchFiles_found {size file : Nat} {best : Option Best} {files : List Sfb}
    {b : Best} (h : searchFiles size file best files = some b) :
    best = some b ∨ ∃ k sfb, b.file = file + k ∧ files[k]? = some sfb ∧
      sfb.sfbFileSpace[b.place]? = some b.space ∧ size ≤ b.space.wfsSize := by
  induction files generalizing file best with
  | nil => exact .inl h
  | cons sfb rest ih =>
    unfold searchFiles at h
    obtain old | ⟨k, sfb', at_k, found⟩ := ih h
    · obtain older | ⟨same, k, at_k, found, fits⟩ := searchSpaces_found old
      · exact .inl older
      · refine .inr ⟨0, sfb, same, rfl, ?_, fits⟩
        rw [at_k, Nat.zero_add]
        exact found
    · exact .inr ⟨k + 1, sfb', by omega, found⟩

end

/-- The bytes of a file that are reserved in a directory. -/
def Sfb.reserved (place : Nat) (sfb : Sfb) : Nat :=
  if sfb.sfbDls = place then sfb.sfbFileSize else 0

def SortFiles.reserved (s : SortFiles) (place : Nat) : Nat :=
  (s.scbSfb.map (Sfb.reserved place)).sum

/-- The directories account for what is reserved in them. -/
def Accounts (mdls : List Dls) (reserved : Nat → Nat) : Prop :=
  ∀ (place : Nat) (dls : Dls), mdls[place]? = some dls →
    dls.dlsSize < 4294967296 ∧ dls.dlsInuse ≤ dls.dlsSize ∧ reserved place ≤ dls.dlsInuse

/-- The work files with the blocks in use, beside what other sorts have reserved. -/
structure SortFiles.Sound (s : SortFiles) (inUse : Nat → List Wfs) (others : Nat → Nat) : Prop where
  files : ∀ (file : Nat) (sfb : Sfb), s.scbSfb[file]? = some sfb → sfb.Sound (inUse file)
  unused : ∀ file, s.scbSfb.length ≤ file → inUse file = []
  placed : ∀ sfb ∈ s.scbSfb, sfb.sfbDls < s.mdlsDls.length
  outside : ∀ place, s.mdlsDls.length ≤ place → others place = 0
  accounts : Accounts s.mdlsDls fun place => s.reserved place + others place

theorem dlsGetTempSpace_accounts {mdls mdls' : List Dls} {reserved : Nat → Nat} {size place : Nat}
    (h : Accounts mdls reserved) (get : dlsGetTempSpace size place mdls = some mdls') :
    Accounts mdls' (Function.update reserved place (reserved place + size)) ∧
      mdls'.length = mdls.length ∧
      ∃ dls, mdls[place]? = some dls ∧ dls.dlsInuse + size ≤ dls.dlsSize := by
  unfold dlsGetTempSpace at get
  split at get
  next room =>
    cases get
    obtain ⟨dls, found, room⟩ := (Option.any_eq_true _ _).mp room
    obtain ⟨small, within, counted⟩ := h place dls found
    have fits : dls.dlsInuse + size ≤ dls.dlsSize := by
      unfold Dls.hasRoom ulong at room
      have := of_decide_eq_true room
      omega
    refine ⟨?_, List.length_modify _ _ _, dls, found, fits⟩
    intro p dls' found'
    rw [List.getElem?_modify] at found'
    obtain ⟨old, hold, rfl⟩ := Option.map_eq_some_iff.mp found'
    by_cases same : place = p
    · subst same
      rw [found] at hold
      cases hold
      rw [if_pos rfl, Function.update_self]
      unfold Dls.take
      simp only
      rw [ulong_of_lt (by omega)]
      omega
    · rw [if_neg same, Function.update_of_ne (Ne.symm same)]
      exact h p old hold
  next => cases get

theorem dlsFindTempSpace_get {mdls mdls' : List Dls} {size place : Nat}
    (find : dlsFindTempSpace size mdls = some (mdls', place)) :
    dlsGetTempSpace size place mdls = some mdls' := by
  unfold dlsFindTempSpace at find
  obtain ⟨p, found, same⟩ := Option.map_eq_some_iff.mp find
  cases same
  have room := List.of_findIdx?_eq_some found
  unfold dlsGetTempSpace
  rw [if_pos]
  cases at_place : mdls[place]? with
  | none =>
    rw [at_place] at room
    cases room
  | some dls =>
    rw [at_place] at room
    exact room

theorem Accounts.mono {mdls : List Dls} {reserved reserved' : Nat → Nat} (h : Accounts mdls reserved)
    (le : ∀ place, reserved' place ≤ reserved place) : Accounts mdls reserved' := by
  intro place dls found
  obtain ⟨small, within, counted⟩ := h place dls found
  exact ⟨small, within, (le place).trans counted⟩

theorem Accounts.addDir {mdls : List Dls} {reserved : Nat → Nat} (h : Accounts mdls reserved)
    (none : ∀ place, mdls.length ≤ place → reserved place = 0) {size : Nat}
    (small : size < 4294967296) : Accounts (mdls ++ [⟨size, 0⟩]) reserved := by
  intro place dls found
  rcases Nat.lt_or_ge place mdls.length with old | new
  · rw [List.getElem?_append_left old] at found
    exact h place dls found
  · rw [List.getElem?_append_right new] at found
    have same := List.mem_singleton.mp (List.mem_of_getElem? found)
    subst same
    exact ⟨small, Nat.zero_le _, (none place new).le⟩

section

variable {s s' : SortFiles} {inUse : Nat → List Wfs} {others : Nat → Nat}

theorem reserved_of_files (same : s'.scbSfb.map (fun sfb => (sfb.sfbDls, sfb.sfbFileSize)) =
    s.scbSfb.map fun sfb => (sfb.sfbDls, sfb.sfbFileSize)) (place : Nat) :
    s'.reserved place = s.reserved place := by
  have through (t : SortFiles) : t.scbSfb.map (Sfb.reserved place) =
      (t.scbSfb.map fun sfb => (sfb.sfbDls, sfb.sfbFileSize)).map
        fun p => if p.1 = place then p.2 else 0 := by
    rw [List.map_map]
    rfl
  unfold SortFiles.reserved
  rw [through, through, same]

theorem map_modify_eq {α β : Type} (f : α → α) (g : α → β) (same : ∀ x, g (f x) = g x) (xs : List α)
    (i : Nat) : (xs.modify i f).map g = xs.map g := by
  apply List.ext_getElem?
  intro j
  rw [List.getElem?_map, List.getElem?_map, List.getElem?_modify]
  cases xs[j]? with
  | none => rfl
  | some x =>
    by_cases here : i = j
    · simp [here, same]
    · simp [here]

theorem reserved_append (files : List Sfb) (sfb : Sfb) (mdls : List Dls) (place : Nat) :
    SortFiles.reserved ⟨files ++ [sfb], mdls⟩ place =
      SortFiles.reserved ⟨files, mdls⟩ place + sfb.reserved place := by
  simp [SortFiles.reserved]

theorem reserved_outside (h : ∀ sfb ∈ s.scbSfb, sfb.sfbDls < s.mdlsDls.length) {place : Nat}
    (outside : s.mdlsDls.length ≤ place) : s.reserved place = 0 := by
  unfold SortFiles.reserved
  apply List.sum_eq_zero
  intro n hn
  obtain ⟨sfb, hsfb, rfl⟩ := List.mem_map.mp hn
  have := h sfb hsfb
  unfold Sfb.reserved
  rw [if_neg (by omega)]

/-- The size of a file is reserved in its directory. -/
theorem size_le_reserved {sfb : Sfb} (mem : sfb ∈ s.scbSfb) :
    sfb.sfbFileSize ≤ s.reserved sfb.sfbDls := by
  have le := List.le_sum_of_mem (List.mem_map_of_mem (f := Sfb.reserved sfb.sfbDls) mem)
  unfold Sfb.reserved at le
  rw [if_pos rfl] at le
  exact le

theorem SortFiles.Sound.small (h : s.Sound inUse others) {sfb : Sfb} (mem : sfb ∈ s.scbSfb) :
    sfb.sfbFileSize < 4294967296 := by
  have counted := size_le_reserved mem
  obtain ⟨low, within, account⟩ :=
    h.accounts sfb.sfbDls _ (List.getElem?_eq_getElem (h.placed sfb mem))
  simp only at account
  omega

/-- A file changes in its spaces, with the blocks of it that are in use. -/
theorem SortFiles.Sound.modify (h : s.Sound inUse others) {file : Nat} {sfb : Sfb} {f : Sfb → Sfb}
    (found : s.scbSfb[file]? = some sfb) {blocks : List Wfs} (sound : (f sfb).Sound blocks)
    (keeps : ∀ sfb, (f sfb).sfbFileSize = sfb.sfbFileSize ∧ (f sfb).sfbDls = sfb.sfbDls) :
    SortFiles.Sound { s with scbSfb := s.scbSfb.modify file f } (Function.update inUse file blocks)
      others := by
  have same := map_modify_eq f (fun sfb => (sfb.sfbDls, sfb.sfbFileSize))
    (fun sfb => by rw [(keeps sfb).1, (keeps sfb).2]) s.scbSfb file
  refine ⟨?_, ?_, ?_, h.outside, ?_⟩
  · intro i x hx
    rw [List.getElem?_modify] at hx
    obtain ⟨old, hold, rfl⟩ := Option.map_eq_some_iff.mp hx
    by_cases here : file = i
    · subst here
      rw [found] at hold
      cases hold
      rw [if_pos rfl, Function.update_self]
      exact sound
    · rw [if_neg here, Function.update_of_ne (Ne.symm here)]
      exact h.files i old hold
  · intro i hi
    rw [List.length_modify] at hi
    have lt := (List.getElem?_eq_some_iff.mp found).1
    rw [Function.update_of_ne (by omega)]
    exact h.unused i hi
  · intro x hx
    have mem : (x.sfbDls, x.sfbFileSize) ∈
        (s.scbSfb.modify file f).map fun sfb => (sfb.sfbDls, sfb.sfbFileSize) :=
      List.mem_map_of_mem (f := fun sfb : Sfb => (sfb.sfbDls, sfb.sfbFileSize)) hx
    rw [same] at mem
    obtain ⟨y, hy, hxy⟩ := List.mem_map.mp mem
    rw [Prod.mk.injEq] at hxy
    exact hxy.1 ▸ h.placed y hy
  · have reserved : ∀ place, SortFiles.reserved { s with scbSfb := s.scbSfb.modify file f } place =
        s.reserved place := reserved_of_files same
    simp only [reserved]
    exact h.accounts

/-- What a new file comes to, with the list of directories that is searched for it. -/
theorem newFile_some {added opened : Bool} {size file position : Nat}
    (new : newFile added opened size s = some (s', file, position)) : ∃ mdls mdls' place,
      (mdls = s.mdlsDls ∨ mdls = s.mdlsDls ++ [⟨maxTempfileSize, 0⟩]) ∧
        dlsFindTempSpace size mdls = some (mdls', place) ∧
          s' = ⟨s.scbSfb ++ [⟨size, [], [], place⟩], mdls'⟩ ∧ file = s.scbSfb.length ∧
            position = 0 := by
  unfold newFile at new
  simp only at new
  split at new
  next => cases new
  next =>
    split at new
    next => cases new
    next mdls' place find =>
      split at new
      next =>
        cases new
        refine ⟨_, mdls', place, ?_, find, rfl, rfl, rfl⟩
        split
        next => exact .inr rfl
        next => exact .inl rfl
      next => cases new

/-- A new file with its first block. -/
theorem newFile_sound (h : s.Sound inUse others) {added opened : Bool} {size file position : Nat}
    (new : newFile added opened size s = some (s', file, position)) :
    s'.Sound (Function.update inUse file (⟨position, size⟩ :: inUse file)) others := by
  obtain ⟨mdls, mdls', place, either, find, rfl, rfl, rfl⟩ := newFile_some new
  obtain ⟨placed, accounts, outside⟩ : (∀ sfb ∈ s.scbSfb, sfb.sfbDls < mdls.length) ∧
      Accounts mdls (fun place => s.reserved place + others place) ∧
        ∀ place, mdls.length ≤ place → others place = 0 := by
    obtain rfl | rfl := either
    · exact ⟨h.placed, h.accounts, h.outside⟩
    · rw [List.length_append]
      refine ⟨fun sfb hsfb => Nat.lt_add_right _ (h.placed sfb hsfb), ?_, fun place hplace => ?_⟩
      · refine h.accounts.addDir ?_ (by decide)
        intro place outside
        rw [reserved_outside h.placed outside, h.outside place outside]
      · exact h.outside place (Nat.le_of_add_right_le hplace)
  obtain ⟨accounts', length, dls, found, fits⟩ :=
    dlsGetTempSpace_accounts accounts (dlsFindTempSpace_get find)
  have lt := (List.getElem?_eq_some_iff.mp found).1
  refine ⟨?_, ?_, ?_, ?_, ?_⟩
  · intro i sfb hsfb
    rcases Nat.lt_or_ge i s.scbSfb.length with old | here
    · rw [List.getElem?_append_left old] at hsfb
      rw [Function.update_of_ne (by omega)]
      exact h.files i sfb hsfb
    · rw [List.getElem?_append_right here] at hsfb
      obtain ⟨last, -⟩ := List.getElem?_eq_some_iff.mp hsfb
      rw [List.length_singleton] at last
      have first : i = s.scbSfb.length := by omega
      have fresh := List.mem_singleton.mp (List.mem_of_getElem? hsfb)
      subst fresh
      rw [first, Function.update_self, h.unused _ (Nat.le_refl _)]
      exact ⟨List.forall_mem_nil _, List.Pairwise.nil, List.forall_mem_nil _,
        by simp [Wfs.stop], List.forall_mem_nil _, by simp⟩
  · intro i hi
    simp only [List.length_append, List.length_singleton] at hi
    rw [Function.update_of_ne (by omega)]
    exact h.unused i (by omega)
  · intro sfb hsfb
    simp only at hsfb ⊢
    rw [length]
    rcases List.mem_append.mp hsfb with old | new
    · exact placed sfb old
    · rw [List.mem_singleton.mp new]
      exact lt
  · intro p hp
    exact outside p (length ▸ hp)
  · refine accounts'.mono ?_
    intro p
    rw [reserved_append]
    have same : SortFiles.reserved ⟨s.scbSfb, mdls'⟩ p = s.reserved p := rfl
    rw [same]
    by_cases here : place = p
    · subst here
      rw [Function.update_self]
      unfold Sfb.reserved
      simp only [if_pos]
      omega
    · rw [Function.update_of_ne (Ne.symm here)]
      unfold Sfb.reserved
      rw [if_neg here]
      exact Nat.le_refl _

/-- `find_file_space` keeps the blocks in use apart, with the one that it returns. -/
theorem findFileSpace_sound (h : s.Sound inUse others) {added opened : Bool} {size file position : Nat}
    (found : findFileSpace added opened size s = some (s', file, position)) :
    s'.Sound (Function.update inUse file (⟨position, size⟩ :: inUse file)) others := by
  unfold findFileSpace at found
  split at found
  next best searched =>
    obtain none | ⟨k, sfb, at_k, at_file, at_place, fits⟩ := searchFiles_found searched
    · cases none
    rw [Nat.zero_add] at at_k
    have keeps : ∀ sfb : Sfb, (sfb.takeBlock size best).sfbFileSize = sfb.sfbFileSize ∧
        (sfb.takeBlock size best).sfbDls = sfb.sfbDls := by
      intro sfb
      unfold Sfb.takeBlock
      split
      · exact ⟨rfl, rfl⟩
      · exact ⟨rfl, rfl⟩
    have taken := takeBlock_sound (h.files k sfb at_file) at_place fits
    rw [← at_k] at at_file taken
    have sound := h.modify at_file taken keeps
    simp only at found
    split at found
    next exactly =>
      cases found
      rw [exactly, Nat.sub_self, Nat.add_zero] at sound
      exact sound
    next =>
      cases found
      exact sound
  next =>
    split at found
    next => exact newFile_sound h found
    next last at_end =>
      split at found
      next => exact newFile_sound h found
      next mdls get =>
        obtain ⟨files, whole⟩ := List.getLast?_eq_some_iff.mp at_end
        obtain ⟨accounts, length, dls, at_dls, fits⟩ := dlsGetTempSpace_accounts h.accounts get
        have mem : last ∈ s.scbSfb := List.mem_of_getLast? at_end
        have account := h.accounts last.sfbDls dls at_dls
        have more : SortFiles.Sound { s with mdlsDls := mdls } inUse others := by
          refine ⟨h.files, h.unused, ?_, ?_, accounts.mono ?_⟩
          · intro sfb hsfb
            exact length ▸ h.placed sfb hsfb
          · intro place hplace
            exact h.outside place (length ▸ hplace)
          · intro place
            by_cases here : place = last.sfbDls
            · subst here
              rw [Function.update_self]
              exact Nat.le_add_right _ _
            · rw [Function.update_of_ne here]
              exact Nat.le_refl _
        simp only at found
        split at found
        next => exact newFile_sound more found
        next =>
          cases found
          have counted := size_le_reserved mem
          have reserved : last.sfbFileSize + size < 4294967296 := by
            obtain ⟨low, within, account⟩ := account
            simp only at account
            omega
          have back : ulong (last.sfbFileSize + size + 4294967296 - size) = last.sfbFileSize := by
            unfold ulong
            omega
          have lengths : s.scbSfb.length = files.length + 1 := by
            rw [whole, List.length_append, List.length_singleton]
          rw [ulong_of_lt reserved, back, lengths, Nat.add_sub_cancel, whole, List.dropLast_concat]
          have at_last : s.scbSfb[files.length]? = some last := by
            rw [whole, List.getElem?_concat_length]
          have grown := (h.files files.length last at_last).extend size
          refine ⟨?_, ?_, ?_, more.outside, ?_⟩
          · intro i sfb hsfb
            rcases Nat.lt_or_ge i files.length with old | here
            · rw [List.getElem?_append_left old] at hsfb
              rw [Function.update_of_ne (by omega)]
              refine h.files i sfb ?_
              rw [whole, List.getElem?_append_left old]
              exact hsfb
            · rw [List.getElem?_append_right here] at hsfb
              obtain ⟨low, -⟩ := List.getElem?_eq_some_iff.mp hsfb
              rw [List.length_singleton] at low
              have first : i = files.length := by omega
              have same := List.mem_singleton.mp (List.mem_of_getElem? hsfb)
              subst same
              rw [first, Function.update_self]
              exact grown
          · intro i hi
            simp only [List.length_append, List.length_singleton] at hi
            rw [Function.update_of_ne (by omega)]
            exact h.unused i (by omega)
          · intro sfb hsfb
            simp only at hsfb ⊢
            rw [length]
            rcases List.mem_append.mp hsfb with old | new
            · exact h.placed sfb (whole ▸ List.mem_append_left _ old)
            · rw [List.mem_singleton.mp new]
              exact h.placed last mem
          · refine accounts.mono ?_
            intro p
            have old : s.reserved p = SortFiles.reserved ⟨files, mdls⟩ p + last.reserved p := by
              rw [← reserved_append, ← whole]
              rfl
            rw [reserved_append]
            by_cases here : last.sfbDls = p
            · subst here
              rw [Function.update_self, old]
              unfold Sfb.reserved
              simp only [if_pos]
              omega
            · rw [Function.update_of_ne (Ne.symm here), old]
              unfold Sfb.reserved
              simp only [if_neg here]
              exact Nat.le_refl _

end

/-- The work files of a sort, the blocks of them that are in use, and what other sorts have
reserved in the directories, over a run of calls. -/
inductive SpaceRun : SortFiles → (Nat → List Wfs) → (Nat → Nat) → Prop where
  | start (mdls : List Dls)
      (room : ∀ dls ∈ mdls, dls.dlsSize < 4294967296 ∧ dls.dlsInuse ≤ dls.dlsSize) :
      SpaceRun ⟨[], mdls⟩ (fun _ => []) (fun place => (mdls[place]?).elim 0 Dls.dlsInuse)
  | find {s s' : SortFiles} {inUse : Nat → List Wfs} {others : Nat → Nat}
      (run : SpaceRun s inUse others) (added opened : Bool) (size : Nat) {file position : Nat}
      (found : findFileSpace added opened size s = some (s', file, position)) :
      SpaceRun s' (Function.update inUse file (⟨position, size⟩ :: inUse file)) others
  | free {s : SortFiles} {inUse : Nat → List Wfs} {others : Nat → Nat}
      (run : SpaceRun s inUse others) (file : Nat) (before after : List Wfs) (block : Wfs)
      (kept : Nat) (used : inUse file = before ++ block :: after) (tail : kept < block.wfsSize) :
      SpaceRun
        { s with
          scbSfb := s.scbSfb.modify file
            (freeFileSpace (block.wfsPosition + kept) (block.wfsSize - kept)) }
        (Function.update inUse file (before ++ ⟨block.wfsPosition, kept⟩ :: after)) others
  | otherGet {s : SortFiles} {inUse : Nat → List Wfs} {others : Nat → Nat}
      (run : SpaceRun s inUse others) (size place : Nat) {mdls : List Dls}
      (get : dlsGetTempSpace size place s.mdlsDls = some mdls) :
      SpaceRun { s with mdlsDls := mdls } inUse
        (Function.update others place (others place + size))
  | otherPut {s : SortFiles} {inUse : Nat → List Wfs} {others : Nat → Nat}
      (run : SpaceRun s inUse others) (size place : Nat) (reserved : size ≤ others place) :
      SpaceRun { s with mdlsDls := s.mdlsDls.modify place (Dls.put size) } inUse
        (Function.update others place (others place - size))
  | addDir {s : SortFiles} {inUse : Nat → List Wfs} {others : Nat → Nat}
      (run : SpaceRun s inUse others) (size : Nat) (small : size < 4294967296) :
      SpaceRun { s with mdlsDls := s.mdlsDls ++ [⟨size, 0⟩] } inUse others

theorem freeFileSpace_keeps (position size : Nat) (sfb : Sfb) :
    (freeFileSpace position size sfb).sfbFileSize = sfb.sfbFileSize ∧
      (freeFileSpace position size sfb).sfbDls = sfb.sfbDls := by
  unfold freeFileSpace Sfb.insertSpace
  simp only
  repeat' split
  all_goals exact ⟨rfl, rfl⟩

theorem SpaceRun.sound {s : SortFiles} {inUse : Nat → List Wfs} {others : Nat → Nat}
    (run : SpaceRun s inUse others) : s.Sound inUse others := by
  induction run with
  | start mdls room =>
    refine ⟨nofun, fun _ _ => rfl, List.forall_mem_nil _, ?_, ?_⟩
    · intro place outside
      rw [List.getElem?_eq_none outside]
      rfl
    · intro place dls found
      obtain ⟨small, within⟩ := room dls (List.mem_of_getElem? found)
      refine ⟨small, within, ?_⟩
      simp [SortFiles.reserved, found]
  | find run added opened size found ih => exact findFileSpace_sound ih found
  | @free s inUse others run file before after block kept used tail ih =>
    cases found : s.scbSfb[file]? with
    | none =>
      have none := ih.unused file (List.getElem?_eq_none_iff.mp found)
      rw [used] at none
      exact absurd none (by simp)
    | some sfb =>
      have sound := ih.files file sfb found
      rw [used] at sound
      exact ih.modify found (freeTail_sound sound tail (ih.small (List.mem_of_getElem? found)))
        (freeFileSpace_keeps _ _)
  | @otherGet s inUse others run size place mdls get ih =>
    obtain ⟨accounts, length, dls, found, -⟩ := dlsGetTempSpace_accounts ih.accounts get
    have lt := (List.getElem?_eq_some_iff.mp found).1
    refine ⟨ih.files, ih.unused, fun sfb hsfb => length ▸ ih.placed sfb hsfb, ?_, accounts.mono ?_⟩
    · intro p outside
      simp only [length] at outside
      rw [Function.update_of_ne (by omega)]
      exact ih.outside p outside
    · intro p
      by_cases here : p = place
      · subst here
        simp only [Function.update_self]
        exact (Nat.add_assoc _ _ _).ge
      · rw [Function.update_of_ne here, Function.update_of_ne here]
        exact Nat.le_refl _
  | @otherPut s inUse others run size place reserved ih =>
    refine ⟨ih.files, ih.unused, ?_, ?_, ?_⟩
    · intro sfb hsfb
      simp only [List.length_modify]
      exact ih.placed sfb hsfb
    · intro p outside
      simp only [List.length_modify] at outside
      have old := ih.outside p outside
      by_cases here : p = place
      · subst here
        rw [Function.update_self, old, Nat.zero_sub]
      · rw [Function.update_of_ne here, old]
    · intro p dls found
      rw [List.getElem?_modify] at found
      obtain ⟨old, hold, rfl⟩ := Option.map_eq_some_iff.mp found
      obtain ⟨small, within, account⟩ := ih.accounts p old hold
      have same : SortFiles.reserved
        { s with mdlsDls := s.mdlsDls.modify place (Dls.put size) } p = s.reserved p := rfl
      simp only at account ⊢
      rw [same]
      by_cases here : place = p
      · subst here
        rw [if_pos rfl, Function.update_self]
        unfold Dls.put
        split
        · refine ⟨small, ?_, ?_⟩
          · show old.dlsInuse - size ≤ old.dlsSize
            omega
          · show s.reserved place + (others place - size) ≤ old.dlsInuse - size
            omega
        · refine ⟨small, Nat.zero_le _, ?_⟩
          show s.reserved place + (others place - size) ≤ 0
          omega
      · rw [if_neg here, Function.update_of_ne (Ne.symm here)]
        exact ⟨small, within, account⟩
  | @addDir s inUse others run size small ih =>
    refine ⟨ih.files, ih.unused, ?_, ?_, ?_⟩
    · intro sfb hsfb
      rw [List.length_append]
      exact Nat.lt_add_right _ (ih.placed sfb hsfb)
    · intro p outside
      simp only [List.length_append] at outside
      exact ih.outside p (Nat.le_of_add_right_le outside)
    · refine ih.accounts.addDir ?_ small
      intro p outside
      rw [reserved_outside ih.placed outside, ih.outside p outside]

/-- In every run the free spaces of each file are in descending order, without a common byte, inside
the file and apart from the blocks in use, and these are apart from each other. -/
theorem spaceRun_apart {s : SortFiles} {inUse : Nat → List Wfs} {others : Nat → Nat}
    (run : SpaceRun s inUse others) :
    (∀ (file : Nat) (sfb : Sfb), s.scbSfb[file]? = some sfb → sfb.Sound (inUse file)) ∧
      ∀ file, s.scbSfb.length ≤ file → inUse file = [] :=
  ⟨run.sound.files, run.sound.unused⟩

/-- Where the tail of a run goes back and is taken again. -/
theorem spaceRun_apart_tail : ∃ inUse : Nat → List Wfs, inUse 0 = [⟨90, 10⟩, ⟨0, 40⟩] ∧
    (∀ (file : Nat) (sfb : Sfb), [(⟨100, [⟨40, 50⟩], [], 0⟩ : Sfb)][file]? = some sfb →
      sfb.Sound (inUse file)) ∧ ∀ file, 1 ≤ file → inUse file = [] := by
  have new : findFileSpace true true 100 ⟨[], [⟨1000, 0⟩]⟩ =
      some (⟨[⟨100, [], [], 0⟩], [⟨1000, 100⟩]⟩, 0, 0) := rfl
  have chopped : findFileSpace true true 10 ⟨[⟨100, [⟨40, 60⟩], [], 0⟩], [⟨1000, 100⟩]⟩ =
      some (⟨[⟨100, [⟨40, 50⟩], [], 0⟩], [⟨1000, 100⟩]⟩, 0, 90) := rfl
  have first := (SpaceRun.start [⟨1000, 0⟩] (by decide)).find true true 100 new
  have freed := first.free 0 [] [] ⟨0, 100⟩ 40 rfl (by decide)
  have again := freed.find true true 10 chopped
  exact ⟨_, rfl, spaceRun_apart again⟩

end InterBase
