import Xv6.DiskLog.Model

/-! Crash atomicity of the log. At every point of `commit` the disk is in one of three
phases: the header is empty and the blocks outside the log are the old ones, the header
lists the transaction and the log has its blocks, or the header is empty and the blocks
outside the log are the new ones. Recovery stays in these phases, and ends in the first
or the third. -/

namespace Xv6.DiskLog

open Writes Function

variable {start : Word} {lh lh' : LogHeader} {d f old : Disk} {b : Block} {a : Word}
  {i j : Fin LOGSIZE} {s : Store}

/-! ## The log area and the header block -/

theorem mem_tails : i ∈ lh.tails ↔ (i : Int) < lh.n := by
  simp [LogHeader.tails]

theorem tails_congr (h : lh'.n = lh.n) : lh'.tails = lh.tails := by
  rw [LogHeader.tails, LogHeader.tails, h]

theorem mem_blocks (hi : i ∈ lh.tails) : lh.block i ∈ lh.blocks := List.mem_map_of_mem hi

/-- The loop goes through the first `n` values. -/
theorem tails_eq_take (lh : LogHeader) : lh.tails = (List.finRange LOGSIZE).take lh.n.toNat := by
  rw [LogHeader.tails]
  nth_rewrite 1 [← List.take_append_drop lh.n.toNat (List.finRange LOGSIZE)]
  rw [List.filter_append, List.filter_eq_self.2, List.filter_eq_nil_iff.2, List.append_nil]
  · intro i hi
    obtain ⟨k, hk, rfl⟩ := List.mem_drop_iff_getElem.1 hi
    simp only [List.getElem_finRange, decide_eq_true_eq, Fin.val_cast]
    omega
  · intro i hi
    obtain ⟨k, hk, rfl⟩ := List.mem_take_iff_getElem.1 hi
    simp only [List.getElem_finRange, decide_eq_true_eq, Fin.val_cast]
    omega

theorem lt_length_tails (hi : i ∈ lh.tails) : i.val < lh.tails.length := by
  have hlt := mem_tails.1 hi
  have hi := i.isLt
  rw [tails_eq_take, List.length_take, List.length_finRange]
  omega

/-- Any list of block numbers that is not too long is that of a header. -/
theorem exists_header {bs : List Word} (h : bs.length ≤ LOGSIZE) :
    ∃ lh : LogHeader, lh.blocks = bs := by
  refine ⟨⟨bs.length, fun i => bs.getD i 0, Int.ofNat_le.2 h⟩, ?_⟩
  rw [LogHeader.blocks, tails_eq_take]
  refine List.ext_getElem ?_ fun k hk hk' => ?_
  · simp only [List.length_map, List.length_take, List.length_finRange, Int.toNat_natCast]
    omega
  · simp [hk']

theorem logBlock_offset (start : Word) (i : Fin LOGSIZE) :
    (logBlock start i - start).toNat = i + 1 := by
  have hi : i.val < 30 := i.isLt
  unfold logBlock
  bv_omega

theorem logBlock_inj (h : logBlock start i = logBlock start j) : i = j := by
  have hi := logBlock_offset start i
  have hj := logBlock_offset start j
  rw [h] at hi
  ext
  omega

theorem logBlock_ne_start (start : Word) (i : Fin LOGSIZE) : logBlock start i ≠ start := by
  intro h
  have hi := logBlock_offset start i
  rw [h, BitVec.sub_self] at hi
  simp at hi

theorem inLog_start (start : Word) : InLog start start := by
  rw [InLog, BitVec.sub_self]
  decide

theorem inLog_logBlock (h : i.val + 1 < nlog) : InLog start (logBlock start i) := by
  rw [InLog, logBlock_offset]
  exact h

theorem slot_ne_nSlot (i : Fin LOGSIZE) : slot i ≠ nSlot := by
  intro h
  have := congrArg Fin.val h
  simp [slot, nSlot] at this

theorem slot_inj (h : slot i = slot j) : i = j := by
  have := congrArg Fin.val h
  simp only [slot] at this
  ext
  omega

/-- The header block `b` lists the transaction of `lh`. -/
structure Lists (lh : LogHeader) (b : Block) : Prop where
  n : headN b = lh.n
  block : ∀ i ∈ lh.tails, b (slot i) = lh.block i

theorem headN_fill (h : 0 ≤ lh.n) (b : Block) : headN (lh.fill b) = lh.n := by
  have hn : lh.fill b nSlot = BitVec.ofInt 32 lh.n := by
    rw [LogHeader.fill, after_of_notMem, update_self]
    intro w hw
    obtain ⟨i, -, rfl⟩ := List.mem_map.1 hw
    exact slot_ne_nSlot i
  have hle : lh.n ≤ 30 := lh.n_le
  rw [headN, hn, BitVec.toInt_ofInt, Int.bmod_eq_of_le] <;> omega

theorem fill_lists (h : 0 ≤ lh.n) (b : Block) : Lists lh (lh.fill b) where
  n := headN_fill h b
  block := by
    intro i hi
    refine after_eq ?_ (.inr ⟨(slot i, lh.block i), List.mem_map_of_mem hi, rfl⟩)
    intro w hw hwi
    obtain ⟨j, -, rfl⟩ := List.mem_map.1 hw
    rw [slot_inj hwi]

theorem headN_clear (lh : LogHeader) (b : Block) : headN (lh.clear.fill b) = 0 :=
  headN_fill (Int.le_refl 0) b

/-- `read_head` gets the transaction back. -/
theorem Lists.readHead (h : Lists lh b) : ∃ lh', readHead b = some lh' ∧ lh'.tails = lh.tails ∧
      ∀ i ∈ lh.tails, lh'.block i = lh.block i := by
  have hn : headN b ≤ LOGSIZE := h.n ▸ lh.n_le
  refine ⟨_, by rw [DiskLog.readHead, dif_pos hn], tails_congr h.n, ?_⟩
  intro i hi
  have hlt : (i : Int) < headN b := by
    rw [h.n]
    exact mem_tails.1 hi
  dsimp only
  rw [if_pos hlt, h.block i hi]

/-! ## The functions as lists of writes -/

theorem copyBlocks_eq {src dst : Fin LOGSIZE → Word} {is : List (Fin LOGSIZE)}
    (h : ∀ i ∈ is, ∀ j ∈ is, src i ≠ dst j) : s.copyBlocks src dst is =
      ⟨after s.disk (is.map fun i => (dst i, s.buf (src i))),
        after s.buf (is.map fun i => (dst i, s.buf (src i))),
        s.writes ++ is.map fun i => (dst i, s.buf (src i))⟩ := by
  induction is generalizing s with
  | nil => simp [Store.copyBlocks, after]
  | cons i is ih =>
    have htail : ∀ j ∈ is, ∀ k ∈ is, src j ≠ dst k := fun j hj k hk =>
      h j (List.mem_cons_of_mem _ hj) k (List.mem_cons_of_mem _ hk)
    -- the later sources are not the block just written
    have hbuf : ∀ j ∈ is, update s.buf (dst i) (s.buf (src i)) (src j) = s.buf (src j) :=
      fun j hj => update_of_ne (h j (List.mem_cons_of_mem _ hj) i List.mem_cons_self) _ _
    have hmap : (is.map fun j =>
        (dst j, update s.buf (dst i) (s.buf (src i)) (src j))) =
        is.map fun j => (dst j, s.buf (src j)) :=
      List.map_congr_left fun j hj => by rw [hbuf j hj]
    rw [Store.copyBlocks, ih htail]
    simp only [Store.bwrite, Store.setData, update_self, hmap, List.map_cons, after,
      List.append_assoc, List.singleton_append]

theorem writeHead_disk (s : Store) (start : Word) (lh : LogHeader) :
    (s.writeHead start lh).disk = update s.disk start (lh.fill (s.buf start)) := by
  simp only [Store.writeHead, Store.setData, Store.bwrite, update_self]

theorem writeHead_buf (s : Store) (start : Word) (lh : LogHeader) :
    (s.writeHead start lh).buf = update s.buf start (lh.fill (s.buf start)) := rfl

theorem writeHead_writes (s : Store) (start : Word) (lh : LogHeader) :
    (s.writeHead start lh).writes = s.writes ++ [(start, lh.fill (s.buf start))] := by
  simp only [Store.writeHead, Store.setData, Store.bwrite, update_self]

/-! ## The phases -/

/-- The log is empty, and the blocks outside it are those of `f`. -/
structure Clean (start : Word) (f d : Disk) : Prop where
  head : headN (d start) = 0
  home : ∀ a, ¬ InLog start a → d a = f a

/-- The log has the transaction `lh` to the contents `f`; of the blocks outside it those
of the transaction may be anything. -/
structure Committed (start : Word) (lh : LogHeader) (f d : Disk) : Prop where
  head : Lists lh (d start)
  copies : ∀ i ∈ lh.tails, d (logBlock start i) = f (lh.block i)
  home : ∀ a, ¬ InLog start a → a ∉ lh.blocks → d a = f a

theorem ne_start (h : ¬ InLog start a) : a ≠ start := by
  rintro rfl
  exact h (inLog_start a)

theorem Clean.update_log (h : Clean start f d) (ha : InLog start a) (hne : a ≠ start) (b : Block) :
    Clean start f (update d a b) where
  head := by rw [update_of_ne hne.symm, h.head]
  home := by
    intro x hx
    have hxa : x ≠ a := by
      rintro rfl
      exact hx ha
    rw [update_of_ne hxa, h.home x hx]

theorem Clean.update_start (h : Clean start f d) (hb : headN b = 0) :
    Clean start f (update d start b) where
  head := by rw [update_self, hb]
  home := fun x hx => by rw [update_of_ne (ne_start hx), h.home x hx]

/-- Where a transaction may go: its log blocks are in the log area, its blocks are not. -/
structure Fits (start : Word) (lh : LogHeader) : Prop where
  room : ∀ i ∈ lh.tails, InLog start (logBlock start i)
  outside : ∀ a ∈ lh.blocks, ¬ InLog start a

theorem Fits.apart (h : Fits start lh) (hi : i ∈ lh.tails) (ha : a ∈ lh.blocks) :
    logBlock start i ≠ a := by
  rintro rfl
  exact h.outside _ ha (h.room i hi)

theorem Committed.update_home (h : Committed start lh f d) (hf : Fits start lh)
    (ha : a ∈ lh.blocks) (b : Block) : Committed start lh f (update d a b) where
  head := by
    rw [update_of_ne (ne_start (hf.outside a ha)).symm]
    exact h.head
  copies := fun i hi => by rw [update_of_ne (hf.apart hi ha), h.copies i hi]
  home := by
    intro x hx hxl
    have hxa : x ≠ a := by
      rintro rfl
      exact hxl ha
    rw [update_of_ne hxa, h.home x hx hxl]

/-- The log may be emptied when all blocks are in place. -/
theorem Committed.update_start (h : Committed start lh f d) (hdone : ∀ a ∈ lh.blocks, d a = f a)
    (hb : headN b = 0) : Clean start f (update d start b) where
  head := by rw [update_self, hb]
  home := by
    intro x hx
    rw [update_of_ne (ne_start hx)]
    by_cases hxl : x ∈ lh.blocks
    · exact hdone x hxl
    · exact h.home x hx hxl

/-- The writes of `install_trans`, when the log has the contents `f`. -/
def installs (lh : LogHeader) (f : Disk) : List (Word × Block) :=
  lh.tails.map fun i => (lh.block i, f (lh.block i))

theorem Committed.installs (h : Committed start lh f d) (hf : Fits start lh) :
    Throughout (Committed start lh f) d (installs lh f) := by
  refine throughout_of_keep h fun m hm w hw => ?_
  obtain ⟨i, hi, rfl⟩ := List.mem_map.1 hw
  exact hm.update_home hf (mem_blocks hi) _

theorem after_installs (ha : a ∈ lh.blocks) : after d (installs lh f) a = f a := by
  refine after_eq ?_ (.inr ?_)
  · intro w hw hwa
    obtain ⟨i, -, rfl⟩ := List.mem_map.1 hw
    exact congrArg f hwa
  · obtain ⟨i, hi, rfl⟩ := List.mem_map.1 ha
    exact ⟨_, List.mem_map_of_mem hi, rfl⟩

def Phase (start : Word) (lh : LogHeader) (old f d : Disk) : Prop :=
  Clean start old d ∨ Committed start lh f d ∨ Clean start f d

/-- The end of `commit` and of a recovery: the blocks are put in place, and the log is
emptied. -/
theorem Committed.finishes (h : Committed start lh f d) (hf : Fits start lh) (hb : headN b = 0) :
    Throughout (Phase start lh old f) d (DiskLog.installs lh f ++ [(start, b)]) ∧
      Clean start f (after d (DiskLog.installs lh f ++ [(start, b)])) := by
  have hinst := h.installs hf
  have hclean : Clean start f (update (after d (DiskLog.installs lh f)) start b) :=
    hinst.final.update_start (fun a ha => after_installs ha) hb
  refine ⟨(hinst.mono fun _ hm => .inr (.inl hm)).append ?_, by rw [after_append]; exact hclean⟩
  exact throughout_cons (.inr (.inl hinst.final)) (throughout_nil (.inr (.inr hclean)))

/-! ## Recovery -/

theorem recoverFromLog_eq (h : readHead (d start) = some lh)
    (hapart : ∀ i ∈ lh.tails, ∀ j ∈ lh.tails, logBlock start i ≠ lh.block j) :
    ∃ s b, (Store.boot d).recoverFromLog start = some s ∧ headN b = 0 ∧
      s.writes = (lh.tails.map fun i => (lh.block i, d (logBlock start i))) ++ [(start, b)] ∧
      s.disk = after d s.writes := by
  refine ⟨((Store.boot d).installTrans start lh).writeHead start lh.clear, _, ?_,
    headN_clear lh (((Store.boot d).installTrans start lh).buf start), ?_, ?_⟩
  · rw [Store.recoverFromLog, Store.boot, h]
    rfl
  · rw [writeHead_writes, Store.installTrans, copyBlocks_eq hapart]
    rfl
  · rw [writeHead_disk, writeHead_writes, after_append, Store.installTrans, copyBlocks_eq hapart]
    rfl

/-- The header of an empty log. -/
def noTrans : LogHeader := ⟨0, fun _ => 0, Int.natCast_nonneg LOGSIZE⟩

theorem tails_noTrans : noTrans.tails = [] := by decide

theorem Clean.recovers (h : Clean start f d) :
    ∃ s, (Store.boot d).recoverFromLog start = some s ∧ Throughout (Clean start f) d s.writes ∧
      Clean start f s.disk := by
  have hempty : Lists noTrans (d start) := ⟨h.head, by simp [tails_noTrans]⟩
  obtain ⟨lh, hlh, htails, -⟩ := hempty.readHead
  rw [tails_noTrans] at htails
  obtain ⟨s, b, hs, hb, hw, hdisk⟩ := recoverFromLog_eq hlh (by simp [htails])
  rw [htails, List.map_nil, List.nil_append] at hw
  have hclean := h.update_start hb
  refine ⟨s, hs, ?_, ?_⟩
  · rw [hw]
    exact throughout_cons h (throughout_nil hclean)
  · rw [hdisk, hw]
    exact hclean

theorem Committed.recovers (h : Committed start lh f d) (hf : Fits start lh) :
    ∃ s, (Store.boot d).recoverFromLog start = some s ∧
      Throughout (Phase start lh old f) d s.writes ∧ Clean start f s.disk := by
  obtain ⟨lh', hlh, htails, hblock⟩ := h.head.readHead
  have hapart : ∀ i ∈ lh'.tails, ∀ j ∈ lh'.tails, logBlock start i ≠ lh'.block j := by
    intro i hi j hj
    rw [htails] at hi hj
    rw [hblock j hj]
    exact hf.apart hi (mem_blocks hj)
  obtain ⟨s, b, hs, hb, hw, hdisk⟩ := recoverFromLog_eq hlh hapart
  have hinst : (lh'.tails.map fun i => (lh'.block i, d (logBlock start i))) =
      DiskLog.installs lh f := by
    rw [htails]
    exact List.map_congr_left fun i hi => by rw [hblock i hi, h.copies i hi]
  rw [hinst] at hw
  refine ⟨s, hs, ?_⟩
  rw [hdisk, hw]
  exact h.finishes hf hb

theorem Phase.recovers (h : Phase start lh old f d) (hf : Fits start lh) :
    ∃ s, (Store.boot d).recoverFromLog start = some s ∧
      Throughout (Phase start lh old f) d s.writes ∧
      (Clean start old s.disk ∨ Clean start f s.disk) := by
  rcases h with h | h | h
  · obtain ⟨s, hs, hthrough, hclean⟩ := h.recovers
    exact ⟨s, hs, hthrough.mono fun _ hm => .inl hm, .inl hclean⟩
  · obtain ⟨s, hs, hthrough, hclean⟩ := h.recovers hf
    exact ⟨s, hs, hthrough, .inr hclean⟩
  · obtain ⟨s, hs, hthrough, hclean⟩ := h.recovers
    exact ⟨s, hs, hthrough.mono fun _ hm => .inr (.inr hm), .inr hclean⟩

/-- Recovery completes, however often it is cut off before. -/
theorem Phase.recover (h : Phase start lh old f d) (hf : Fits start lh) (cuts : List Nat) :
    ∃ d', recover start cuts d = some d' ∧ (Clean start old d' ∨ Clean start f d') := by
  induction cuts generalizing d with
  | nil =>
    obtain ⟨s, hs, -, hclean⟩ := h.recovers hf
    exact ⟨s.disk, by rw [DiskLog.recover, hs]; rfl, hclean⟩
  | cons k cuts ih =>
    obtain ⟨s, hs, hthrough, -⟩ := h.recovers hf
    obtain ⟨d', hd', hclean⟩ := ih (hthrough k)
    exact ⟨d', by rw [DiskLog.recover, hs]; exact hd', hclean⟩

/-! ## Commit -/

/-- The writes of `write_log`. -/
def logs (start : Word) (lh : LogHeader) (f : Disk) : List (Word × Block) :=
  lh.tails.map fun i => (logBlock start i, f (lh.block i))

theorem after_logs (hi : i ∈ lh.tails) :
    after d (logs start lh f) (logBlock start i) = f (lh.block i) := by
  refine after_eq ?_ (.inr ⟨_, List.mem_map_of_mem hi, rfl⟩)
  intro w hw hwi
  obtain ⟨j, -, rfl⟩ := List.mem_map.1 hw
  rw [logBlock_inj hwi]

theorem writeLog_eq (hf : Fits start lh) (s : Store) :
    (s.writeLog start lh).writes = s.writes ++ logs start lh s.buf ∧
      (s.writeLog start lh).buf = after s.buf (logs start lh s.buf) := by
  have hapart : ∀ i ∈ lh.tails, ∀ j ∈ lh.tails, lh.block i ≠ logBlock start j :=
    fun i hi j hj => (hf.apart hj (mem_blocks hi)).symm
  rw [Store.writeLog, copyBlocks_eq hapart]
  exact ⟨rfl, rfl⟩

theorem installTrans_writes (hf : Fits start lh)
    (h : ∀ i ∈ lh.tails, s.buf (logBlock start i) = f (lh.block i)) :
    (s.installTrans start lh).writes = s.writes ++ installs lh f := by
  have hapart : ∀ i ∈ lh.tails, ∀ j ∈ lh.tails, logBlock start i ≠ lh.block j :=
    fun i hi j hj => hf.apart hi (mem_blocks hj)
  have hmap : (lh.tails.map fun i => (lh.block i, s.buf (logBlock start i))) = installs lh f :=
    List.map_congr_left fun i hi => by rw [h i hi]
  rw [Store.installTrans, copyBlocks_eq hapart, hmap]

theorem commit_writes (hf : Fits start lh) (hn : 0 < lh.n) (s : Store) :
    ∃ b b', Lists lh b ∧ headN b' = 0 ∧ (s.commit start lh).writes = s.writes ++
      (logs start lh s.buf ++ ([(start, b)] ++ (installs lh s.buf ++ [(start, b')]))) := by
  obtain ⟨hwrites, hbuf⟩ := writeLog_eq hf s
  -- `install_trans` finds in the cache what `write_log` has put there
  have hcopies : ∀ i ∈ lh.tails,
      ((s.writeLog start lh).writeHead start lh).buf (logBlock start i) = s.buf (lh.block i) := by
    intro i hi
    rw [writeHead_buf, update_of_ne (logBlock_ne_start start i), hbuf, after_logs hi]
  have hinst := installTrans_writes hf hcopies
  rw [Store.commit, if_pos hn, writeHead_writes, hinst, writeHead_writes, hwrites]
  simp only [List.append_assoc]
  exact ⟨_, _, fill_lists hn.le _, headN_clear lh _, rfl⟩

/-- Every point of `commit` is in one of the phases. -/
theorem commit_phase (hf : Fits start lh) (h : headN (d start) = 0) (new : Disk) :
    Throughout (Phase start lh d ((Store.modified d lh.blocks new).buf)) d
      ((Store.modified d lh.blocks new).commit start lh).writes := by
  have hclean : Clean start d d := ⟨h, fun _ _ => rfl⟩
  by_cases hn : 0 < lh.n
  · obtain ⟨b, b', hb, hb', hw⟩ := commit_writes hf hn (.modified d lh.blocks new)
    rw [hw]
    generalize hfun : (Store.modified d lh.blocks new).buf = f
    have hlog : Throughout (Clean start d) d (logs start lh f) := by
      refine throughout_of_keep hclean fun m hm w hw => ?_
      obtain ⟨i, hi, rfl⟩ := List.mem_map.1 hw
      exact hm.update_log (hf.room i hi) (logBlock_ne_start start i) _
    -- the write of the header is the commit point
    have hcommitted : Committed start lh f (update (after d (logs start lh f)) start b) := by
      refine ⟨?_, ?_, ?_⟩
      · rw [update_self]
        exact hb
      · intro i hi
        rw [update_of_ne (logBlock_ne_start start i), after_logs hi]
      · intro a ha hal
        rw [update_of_ne (ne_start ha), hlog.final.home a ha, ← hfun]
        exact (if_neg hal).symm
    refine (hlog.mono fun _ hm => .inl hm).append ?_
    exact throughout_cons (.inl hlog.final) (hcommitted.finishes hf hb').1
  · rw [Store.commit, if_neg hn]
    exact throughout_nil (.inl hclean)

/-- **Crash atomicity.** `commit` of a transaction of at most `nlog - 1` blocks outside the
log, on a disk whose log is empty, is cut off after any number `k` of its writes; recovery
is cut off as often and wherever `cuts` says and then completes. All blocks of the
transaction have their old contents, or all have their new contents, every other block
outside the log is unchanged, and the log is empty. -/
theorem commit_crash_atomic (start : Word) (d new : Disk) (bs : List Word)
    (hempty : headN (d start) = 0) (hlen : bs.length ≤ nlog - 1)
    (hout : ∀ a ∈ bs, ¬ InLog start a) : (∃ lh : LogHeader, lh.blocks = bs) ∧
    ∀ (lh : LogHeader) (k : Nat) (cuts : List Nat), lh.blocks = bs → ∃ d', recover start cuts
          (after d (((Store.modified d bs new).commit start lh).writes.take k)) = some d' ∧
        ((∀ a ∈ bs, d' a = d a) ∨ ∀ a ∈ bs, d' a = new a) ∧
        (∀ a, ¬ InLog start a → a ∉ bs → d' a = d a) ∧ headN (d' start) = 0 := by
  refine ⟨exists_header (hlen.trans (Nat.sub_le _ _)), ?_⟩
  rintro lh k cuts rfl
  have hf : Fits start lh := by
    refine ⟨fun i hi => inLog_logBlock ?_, hout⟩
    have hi := lt_length_tails hi
    rw [LogHeader.blocks, List.length_map] at hlen
    omega
  obtain ⟨d', hd', hclean⟩ := (commit_phase hf hempty new k).recover hf cuts
  refine ⟨d', hd', ?_⟩
  rcases hclean with h | h
  · exact ⟨.inl fun a ha => h.home a (hout a ha), fun a ha _ => h.home a ha, h.head⟩
  · refine ⟨.inr fun a ha => ?_, fun a ha hal => ?_, h.head⟩
    · rw [h.home a (hout a ha)]
      exact if_pos ha
    · rw [h.home a ha]
      exact if_neg hal

/-- A transaction of the blocks 40 and 50. -/
def twoBlocks : LogHeader := ⟨2, fun i => if i.val = 0 then 40 else 50, by decide⟩

/-- It is cut off between the two home blocks, and the first recovery after one write. -/
theorem commit_crash_atomic_two :
    ((Store.modified (fun _ _ => 0) [40, 50] (fun _ _ => 7)).commit 2 twoBlocks).writes.map
      Prod.fst = [3, 4, 2, 40, 50, 2] ∧
    ∃ d', recover 2 [1] (after (fun _ _ => 0) (((Store.modified (fun _ _ => 0) [40, 50]
        (fun _ _ => 7)).commit 2 twoBlocks).writes.take 4)) = some d' ∧
      ((∀ a ∈ [40, 50], d' a = fun _ => 0) ∨ ∀ a ∈ [40, 50], d' a = fun _ => 7) ∧
      (∀ a, ¬ InLog 2 a → a ∉ [40, 50] → d' a = fun _ => 0) ∧ headN (d' 2) = 0 := by
  refine ⟨by decide +kernel, ?_⟩
  have hout : ∀ a ∈ [(40 : Word), 50], ¬ InLog 2 a :=
    List.forall_mem_cons.2 ⟨by decide, List.forall_mem_singleton.2 (by decide)⟩
  have hatomic := commit_crash_atomic 2 (fun _ _ => 0) (fun _ _ => 7) [40, 50] (by decide)
    (by decide) hout
  exact hatomic.2 twoBlocks 4 [1] (by decide)

/-! ## Commits one after the other -/

theorem Clean.congr {g : Disk} (h : Clean start f d) (hf : ∀ a, ¬ InLog start a → f a = g a) :
    Clean start g d :=
  ⟨h.head, fun a ha => (h.home a ha).trans (hf a ha)⟩

/-- A `commit` that is not cut off. -/
theorem commit_done (hf : Fits start lh) (h : headN (d start) = 0) (new : Disk) :
    Clean start (Store.modified d lh.blocks new).buf
      (after d ((Store.modified d lh.blocks new).commit start lh).writes) := by
  by_cases hn : 0 < lh.n
  · have hphase := (commit_phase hf h new).final
    obtain ⟨b, b', -, hb', hw⟩ := commit_writes hf hn (.modified d lh.blocks new)
    rw [← List.append_assoc, ← List.append_assoc, ← List.append_assoc] at hw
    rw [hw, after_append, after_append] at hphase ⊢
    refine ⟨by rw [after, after, update_self, hb'], fun a ha => ?_⟩
    by_cases hal : a ∈ lh.blocks
    · rw [after, after, update_of_ne (ne_start ha), after_installs hal]
    · rcases hphase with hp | hp | hp
      · exact (hp.home a ha).trans (if_neg hal).symm
      · exact hp.home a ha hal
      · exact hp.home a ha
  · rw [Store.commit, if_neg hn]
    refine ⟨h, fun a _ => (if_neg fun hal => hn ?_).symm⟩
    obtain ⟨i, hi, -⟩ := List.mem_map.1 hal
    have := mem_tails.1 hi
    omega

/-- A transaction, what it writes, and where its `commit` and the recoveries after it are cut
off, if the machine crashes. -/
structure Attempt where
  lh : LogHeader
  new : Disk
  crash : Option (Nat × List Nat)

/-- The disk after the attempts; between them the cache has what is on the disk. -/
def attempts (start : Word) : List Attempt → Disk → Option Disk
  | [], d => some d
  | t :: ts, d =>
    let ws := ((Store.modified d t.lh.blocks t.new).commit start t.lh).writes
    match t.crash with
    | none => attempts start ts (after d ws)
    | some (k, cuts) => (recover start cuts (after d (ws.take k))).bind (attempts start ts)

/-- The contents that the transactions leave. -/
def contents (f : Disk) (ts : List Attempt) : Disk :=
  ts.foldl (fun f t => (Store.modified f t.lh.blocks t.new).buf) f

/-- **Durability.** Transactions are committed one after the other, the machine crashing in some of
them. Recovery always succeeds, and in the end the blocks outside the log have the contents that
some of the transactions leave in their order: all that were not cut off are among them. -/
theorem attempts_durable {ts : List Attempt} (h : Clean start f d)
    (hfits : ∀ t ∈ ts, Fits start t.lh) : ∃ d' done, attempts start ts d = some d' ∧
      Clean start (contents f done) d' ∧ done.Sublist ts ∧
      (ts.filter fun t => t.crash.isNone).Sublist done := by
  induction ts generalizing f d with
  | nil => exact ⟨d, [], rfl, h, .slnil, .slnil⟩
  | cons t ts ih =>
    have hf := hfits t List.mem_cons_self
    have hts : ∀ t ∈ ts, Fits start t.lh := fun t ht => hfits t (List.mem_cons_of_mem _ ht)
    have hnew : ∀ a, ¬ InLog start a → (Store.modified d t.lh.blocks t.new).buf a =
        (Store.modified f t.lh.blocks t.new).buf a := by
      intro a ha
      simp only [Store.modified, h.home a ha]
    cases hc : t.crash with
    | none =>
      obtain ⟨d', done, hd', hclean, hsub, hall⟩ :=
        ih ((commit_done hf h.head t.new).congr hnew) hts
      refine ⟨d', t :: done, by simpa only [attempts, hc] using hd', hclean, hsub.cons_cons t, ?_⟩
      rw [List.filter_cons_of_pos (by simp [hc])]
      exact hall.cons_cons t
    | some x =>
      obtain ⟨d1, hd1, hclean1⟩ := (commit_phase hf h.head t.new x.1).recover hf x.2
      rw [List.filter_cons_of_neg (by simp [hc])]
      simp only [attempts, hc, hd1]
      rcases hclean1 with hold | hdone
      · obtain ⟨d', done, hd', hclean, hsub, hall⟩ := ih (hold.congr h.home) hts
        exact ⟨d', done, hd', hclean, hsub.cons t, hall⟩
      · obtain ⟨d', done, hd', hclean, hsub, hall⟩ := ih (hdone.congr hnew) hts
        exact ⟨d', t :: done, hd', hclean, hsub.cons_cons t, hall.cons t⟩

/-- Two transactions of the same blocks: the first one is done, the second is cut off after its
header has been written. -/
def twice : List Attempt :=
  [⟨twoBlocks, fun _ _ => 7, none⟩, ⟨twoBlocks, fun _ _ => 8, some (3, [])⟩]

theorem attempts_durable_twice :
    ∃ d', attempts 2 twice (fun _ _ => 0) = some d' ∧ headN (d' 2) = 0 := by
  have hblocks : twoBlocks.blocks = [40, 50] := by decide
  have hout : ∀ a ∈ [(40 : Word), 50], ¬ InLog 2 a :=
    List.forall_mem_cons.2 ⟨by decide, List.forall_mem_singleton.2 (by decide)⟩
  have hfits : Fits 2 twoBlocks := ⟨by decide, hblocks ▸ hout⟩
  have hclean : Clean 2 (fun _ _ => 0) fun _ _ => 0 := ⟨by decide, fun _ _ => rfl⟩
  have hts : ∀ t ∈ twice, Fits 2 t.lh :=
    List.forall_mem_cons.2 ⟨hfits, List.forall_mem_singleton.2 hfits⟩
  obtain ⟨d', _, hd', hclean', _⟩ := attempts_durable hclean hts
  exact ⟨d', hd', hclean'.head⟩

end Xv6.DiskLog
