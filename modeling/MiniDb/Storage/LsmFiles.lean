import MiniDb.Storage.LsmRuns

/-! # LSM trees across restarts

  Opening a directory gives the tree of the runs it stores, whatever the order
  in which the files are listed.  `OnDisk` are the directories that trees leave
  behind, killed at any point of a call or closed, and `Reached` the trees that
  are opened on such directories and then used.

  The compaction unlinks the oldest table first.  That order is what makes a
  half-done compaction harmless: while a tombstone's table is still there, so is
  everything newer, and the merged table in front of them agrees with both. -/

namespace MiniDb.Lsm

open Framework List

/-! ### Opening -/

theorem sst_open_some {seq : Nat} {fp : List Int} {s : SSTable} (h : sst_open seq fp = some s) :
    s.seq = seq ∧ s.fp = fp := by
  unfold sst_open at h
  split at h
  · split_ifs at h
    · split at h
      · cases h
        exact ⟨rfl, rfl⟩
      · cases h
    · cases h
      exact ⟨rfl, rfl⟩
  · cases h

/-- The number after all tables is free. -/
theorem next_seq_gt (found : List SSTable) (n : Nat) :
    n ≤ found.foldl (fun n s => if n ≤ s.seq then s.seq + 1 else n) n ∧
      ∀ s ∈ found, s.seq < found.foldl (fun n s => if n ≤ s.seq then s.seq + 1 else n) n := by
  induction found generalizing n with
  | nil => simp
  | cons x found ih =>
    obtain ⟨hle, hlt⟩ := ih (if n ≤ x.seq then x.seq + 1 else n)
    rw [foldl_cons]
    refine ⟨le_trans (by split <;> omega) hle, fun s hs => ?_⟩
    rcases mem_cons.1 hs with rfl | hs
    · refine lt_of_lt_of_le ?_ hle
      split <;> omega
    · exact hlt s hs

namespace Stored

variable {multi : Bool} {dir order : Dir} {runs : List (Nat × List Entry)}

variable (h : Stored multi dir runs)

include h

theorem perm (hperm : order.Perm dir) : Stored multi order runs where
  __ := h
  nodup := (hperm.map _).nodup_iff.2 h.nodup
  files r hr := hperm.mem_iff.2 (h.files r hr)
  others f hf := h.others f (hperm.mem_iff.1 hf)

/-- The files that can be opened are the tables of the runs. -/
theorem found_perm :
    (dir.filterMap fun f => sst_open f.1 f.2).Perm (runs.map fun r => table r.1 r.2) := by
  have hfound : (dir.filterMap fun f => sst_open f.1 f.2).Nodup := by
    refine h.nodup.of_map.filterMap fun f f' s hs hs' => ?_
    obtain ⟨hseq, hfp⟩ := sst_open_some hs
    obtain ⟨hseq', hfp'⟩ := sst_open_some hs'
    exact Prod.ext (hseq.symm.trans hseq') (hfp.symm.trans hfp')
  have hruns : (runs.map fun r => table r.1 r.2).Nodup :=
    pairwise_map.2 (h.order.imp fun hlt heq => hlt.ne (congrArg SSTable.seq heq))
  refine (perm_ext_iff_of_nodup hfound hruns).2 fun s => ?_
  rw [mem_filterMap, mem_map]
  constructor
  · rintro ⟨f, hf, hs⟩
    rcases h.others f hf with ⟨r, hr, rfl⟩ | hnone
    · rw [sst_open_words] at hs
      exact ⟨r, hr, Option.some.inj hs⟩
    · rw [hnone] at hs
      cases hs
  · rintro ⟨r, hr, rfl⟩
    exact ⟨_, h.files r hr, sst_open_words r.1 r.2⟩

/-- The sort by number puts the tables into the order of the runs. -/
theorem found_sorted :
    (dir.filterMap fun f => sst_open f.1 f.2).insertionSort (fun a b => a.seq ≤ b.seq) =
      runs.map fun r => table r.1 r.2 := by
  have : Std.Total fun a b : SSTable => a.seq ≤ b.seq := ⟨fun a b => le_total a.seq b.seq⟩
  have : IsTrans SSTable fun a b => a.seq ≤ b.seq := ⟨fun _ _ _ => le_trans⟩
  have hruns : (runs.map fun r => table r.1 r.2).Pairwise fun a b => a.seq < b.seq :=
    pairwise_map.2 (h.order.imp fun hlt => hlt)
  have hperm := (perm_insertionSort (fun a b : SSTable => a.seq ≤ b.seq) _).trans h.found_perm
  refine hperm.eq_of_pairwise (fun a b ha hb hab hba => ?_)
    (pairwise_insertionSort _ _) (hruns.imp le_of_lt)
  -- two tables with the same number are the same table
  have hseq : ((runs.map fun r => table r.1 r.2).map SSTable.seq).Nodup :=
    pairwise_map.2 (hruns.imp ne_of_lt)
  exact inj_on_of_nodup_map hseq (hperm.mem_iff.1 ha) hb (le_antisymm hab hba)

theorem opened (hperm : order.Perm dir) {threshold : Nat} (hth : 1 ≤ threshold) :
    ∃ l, lsm_open_multi order threshold multi = some l ∧ l.multi = multi ∧ l.mem = [] ∧
      l.Holds runs := by
  have horder := h.perm hperm
  refine ⟨_, by rw [lsm_open_multi, if_neg (by omega)], rfl, rfl, ?_⟩
  refine ⟨horder, horder.found_sorted, .nil, fun r hr => ?_⟩
  exact (next_seq_gt _ 1).2 (table r.1 r.2)
    (horder.found_perm.mem_iff.2 (mem_map_of_mem hr))

end Stored

theorem threshold_pos {order : Dir} {threshold : Nat} {multi : Bool} {l : LSM}
    (h : lsm_open_multi order threshold multi = some l) : 1 ≤ threshold := by
  rw [lsm_open_multi] at h
  split_ifs at h
  omega

/-! ### Equal reads -/

/-- Every read gives the same on both trees.  Point reads belong to unique
    mode. -/
structure SameReads (l l' : LSM) : Prop where
  get : l.multi = false → ∀ k, lsm_get l k = lsm_get l' k
  scan : ∀ lo hi, lsm_scan l lo hi = lsm_scan l' lo hi
  find_all : ∀ k, lsm_find_all l k = lsm_find_all l' k

/-- Ascending lists of pairs with the same members are equal. -/
theorem eq_of_ascending {multi : Bool} {xs ys : List (Int × Int)}
    (hxs : xs.Pairwise fun a b => group multi ⟨a.1, a.2, false⟩ < group multi ⟨b.1, b.2, false⟩)
    (hys : ys.Pairwise fun a b => group multi ⟨a.1, a.2, false⟩ < group multi ⟨b.1, b.2, false⟩)
    (hmem : ∀ k v, (k, v) ∈ xs ↔ (k, v) ∈ ys) : xs = ys := by
  have hperm : xs.Perm ys := (perm_ext_iff_of_nodup
    (hxs.imp fun hlt heq => by simp [heq] at hlt)
    (hys.imp fun hlt heq => by simp [heq] at hlt)).2 fun p => hmem p.1 p.2
  exact hperm.eq_of_pairwise (fun a b _ _ hab hba => absurd hab hba.asymm) hxs hys

/-- Trees that say the same about every group give the same reads. -/
theorem LSM.Holds.sameReads {l l' : LSM} {runs runs' : List (Nat × List Entry)}
    (h : l.Holds runs) (h' : l'.Holds runs') (hm : l.multi = l'.multi)
    (hlive : ∀ g, live (newest l runs g) = live (newest l' runs' g)) : SameReads l l' where
  get hu k := by rw [h.get hu, h'.get (hm ▸ hu), hlive]
  scan lo hi := by
    obtain ⟨hasc, hmem⟩ := h.scan lo hi
    obtain ⟨hasc', hmem'⟩ := h'.scan lo hi
    rw [hm] at hasc hmem
    exact eq_of_ascending hasc hasc' fun k v => by rw [hmem, hmem', hlive]
  find_all key := by
    obtain ⟨hasc, hmem⟩ := h.find_all key
    obtain ⟨hasc', hmem'⟩ := h'.find_all key
    rw [hm] at hasc hmem
    exact eq_of_ascending hasc hasc' fun k v => by rw [hmem, hmem', hlive]

/-! ### Kill points -/

/-- The directories a kill inside `lsm_flush` can leave: nothing done yet, or
    the new file up to some word. -/
def flush_points (l : LSM) : List Dir :=
  l.dir :: if l.mem = [] then []
    else (List.range ((sst_words l.mem).length + 1)).map fun n =>
      dir_write l.dir l.next_seq ((sst_words l.mem).take n)

/-- The directories a kill inside `lsm_compact` can leave: as for a flush, and
    then with the first tables unlinked. -/
def compact_points (l : LSM) : List Dir :=
  l.dir :: if l.ssts = [] ∨ (l.ssts.map SSTable.count).sum = 0 then []
    else ((List.range ((sst_words (compacted l)).length + 1)).map fun n =>
        dir_write l.dir l.next_seq ((sst_words (compacted l)).take n)) ++
      (List.range (l.ssts.length + 1)).map fun i =>
        unlink_all (dir_write l.dir l.next_seq (sst_words (compacted l))) (l.ssts.take i)

/-- The compaction ends in one of them. -/
theorem lsm_compact_dir (l : LSM) : (lsm_compact l).2.dir ∈ compact_points l := by
  unfold lsm_compact compact_points
  by_cases hnone : l.ssts = [] ∨ (l.ssts.map SSTable.count).sum = 0
  · rcases hnone with hnone | hnone <;> simp [hnone]
  obtain ⟨hssts, hsum⟩ := not_or.mp hnone
  rw [if_neg hssts, if_neg hsum, if_neg hnone]
  refine mem_cons_of_mem _ (mem_append.mpr ?_)
  dsimp only
  split
  · exact .inl (mem_map.mpr ⟨_, mem_range.mpr (Nat.lt_succ_self _), by rw [take_length]⟩)
  · exact .inr (mem_map.mpr ⟨_, mem_range.mpr (Nat.lt_succ_self _), by rw [take_length]⟩)

/-- The directories a kill inside `lsm_clear` can leave. -/
def clear_points (l : LSM) : List Dir :=
  (List.range (l.ssts.length + 1)).map fun i => unlink_all l.dir (l.ssts.take i)

mutual

/-- The directories that trees of a mode leave behind. -/
inductive OnDisk (multi : Bool) : Dir → Prop where
  | empty : OnDisk multi []
  | killed {l : LSM} {d : Dir} : Reached multi l →
      d ∈ flush_points l ++ compact_points l ++ clear_points l → OnDisk multi d

/-- The trees of a mode: opened on such a directory, used by any calls, or in
    the middle of one, its version written and the flush not begun. -/
inductive Reached (multi : Bool) : LSM → Prop where
  | opened {dir order : Dir} {threshold : Nat} {l : LSM} : OnDisk multi dir → order.Perm dir →
      lsm_open_multi order threshold multi = some l → Reached multi l
  | call {l : LSM} (c : Call multi) : Reached multi l → Reached multi (c.run l).2
  | writing {l : LSM} (e : Entry) : Reached multi l → Reached multi (write l e)

end

/-! ### What a kill leaves -/

/-- The tree without what was only in memory. -/
def tables_only (l : LSM) : LSM := { l with mem := [] }

namespace LSM.Holds

variable {l : LSM} {runs : List (Nat × List Entry)}

variable (h : l.Holds runs) {d : Dir}

include h

theorem tables_only : (tables_only l).Holds runs :=
  ⟨h.stored, h.ssts, .nil, h.next⟩

/-- A kill inside a flush leaves the tables, and the memtable as one more when
    its file is whole. -/
theorem flush_points (hd : d ∈ flush_points l) :
    if d = (lsm_flush l).2.dir then ∃ runs', (lsm_flush l).2.Holds runs' ∧ Stored l.multi d runs' ∧
        ∀ g, newest (lsm_flush l).2 runs' g = newest l runs g else Stored l.multi d runs := by
  split
  case isTrue hdone =>
    obtain ⟨-, hmulti, runs', hruns', hsame⟩ := h.flush
    exact ⟨runs', hruns', hdone ▸ hmulti ▸ hruns'.stored, hsame⟩
  case isFalse hnot =>
    rw [Lsm.flush_points] at hd
    rw [lsm_flush_eq] at hnot
    rcases mem_cons.1 hd with rfl | hd
    · exact h.stored
    · split_ifs at hd hnot with hmem
      · cases hd
      · obtain ⟨n, hn, rfl⟩ := mem_map.1 hd
        have hlt : n < (sst_words l.mem).length := by
          refine lt_of_le_of_ne (Nat.lt_succ_iff.1 (mem_range.1 hn)) fun heq => hnot ?_
          rw [heq, take_length]
        exact h.stored.torn h.next l.mem hlt

/-- The merged table in front of the newest tables says what all tables said. -/
theorem compacted_shadows (i : Nat) (g : Int ×ₗ Int) :
    live (top (group l.multi) (Lsm.compacted l :: layers (runs.drop i)) g) =
      live (top (group l.multi) (layers runs) g) := by
  have hlayers : layers runs = layers (runs.drop i) ++ layers (runs.take i) := by
    rw [← layers_append, take_append_drop]
  rw [top_cons, h.compacted.2 g, hlayers, top_append]
  -- a version in the newest tables is the newest of all; without one there the
  -- merged table alone decides
  rcases top (group l.multi) (layers (runs.drop i)) g with _ | e
  · simp [live_filter]
  · rcases ht : e.tomb <;> simp [Option.filter, ht, live]

/-- A kill inside a compaction leaves tables that read as those before. -/
theorem compact_points (hd : d ∈ compact_points l) :
    ∃ runs', Stored l.multi d runs' ∧
      ∀ g, live (top (group l.multi) (layers runs') g) =
        live (top (group l.multi) (layers runs) g) := by
  rw [Lsm.compact_points] at hd
  rcases mem_cons.1 hd with rfl | hd
  · exact ⟨runs, h.stored, fun _ => rfl⟩
  split_ifs at hd
  · cases hd
  have hwritten := h.stored.write h.next h.compacted.1
  have hread : ∀ i g, live (top (group l.multi)
      (layers (runs.drop i ++ [(l.next_seq, Lsm.compacted l)])) g) =
        live (top (group l.multi) (layers runs) g) := by
    intro i g
    rw [layers_append]
    exact h.compacted_shadows i g
  rcases mem_append.1 hd with hd | hd
  · -- the merged file, up to some word
    obtain ⟨n, hn, rfl⟩ := mem_map.1 hd
    rcases (Nat.lt_succ_iff.1 (mem_range.1 hn)).lt_or_eq with hlt | rfl
    · exact ⟨runs, h.stored.torn h.next _ hlt, fun _ => rfl⟩
    · rw [take_length]
      exact ⟨_, hwritten, hread 0⟩
  · -- the merged file, and the oldest tables unlinked
    obtain ⟨i, -, rfl⟩ := mem_map.1 hd
    refine ⟨_, ?_, hread i⟩
    rw [h.ssts, ← map_take]
    refine Stored.unlink_all ?_
    rw [← append_assoc, take_append_drop]
    exact hwritten

theorem clear_points (hd : d ∈ clear_points l) : ∃ runs', Stored l.multi d runs' := by
  obtain ⟨i, -, rfl⟩ := mem_map.1 hd
  refine ⟨runs.drop i, ?_⟩
  rw [h.ssts, ← map_take]
  refine Stored.unlink_all ?_
  rw [take_append_drop]
  exact h.stored

end LSM.Holds

variable {multi : Bool} {l : LSM}

/-- One call, from any tree that holds runs. -/
theorem LSM.Holds.call {runs : List (Nat × List Entry)}
    (h : l.Holds runs) (hm : l.multi = multi) (c : Call multi) :
    (c.run l).2.multi = multi ∧ ∃ runs', (c.run l).2.Holds runs' := by
  have hcont : l.Contains multi fun g => live (newest l runs g) := ⟨hm, runs, h, fun _ => rfl⟩
  obtain ⟨-, hm', runs', hruns', -⟩ := hcont.call c
  exact ⟨hm', runs', hruns'⟩

mutual

theorem OnDisk.stored {multi : Bool} {d : Dir} : OnDisk multi d → ∃ runs, Stored multi d runs
  | .empty => ⟨[], .empty⟩
  | .killed hl hd => by
    obtain ⟨rfl, runs, h⟩ := hl.holds
    rcases mem_append.1 hd with hd | hd
    · rcases mem_append.1 hd with hd | hd
      · have hpoint := h.flush_points hd
        split at hpoint
        · obtain ⟨runs', -, hstored, -⟩ := hpoint
          exact ⟨runs', hstored⟩
        · exact ⟨runs, hpoint⟩
      · obtain ⟨runs', hstored, -⟩ := h.compact_points hd
        exact ⟨runs', hstored⟩
    · exact h.clear_points hd

theorem Reached.holds {multi : Bool} {l : LSM} :
    Reached multi l → l.multi = multi ∧ ∃ runs, l.Holds runs
  | .opened hdir hperm hopen => by
    obtain ⟨runs, hstored⟩ := hdir.stored
    obtain ⟨l', hopen', hm, -, hl'⟩ := hstored.opened hperm (threshold_pos hopen)
    rw [hopen, Option.some.injEq] at hopen'
    subst hopen'
    exact ⟨hm, runs, hl'⟩
  | .call c hl => by
    obtain ⟨hm, runs, h⟩ := hl.holds
    exact h.call hm c
  | .writing e hl => by
    obtain ⟨hm, runs, h⟩ := hl.holds
    obtain ⟨hw, hmulti, -⟩ := h.write e
    exact ⟨hmulti.trans hm, runs, hw⟩

end

variable {threshold : Nat} {m : Int ×ₗ Int → Option Int} {S : Set (Int × Int)}

/-- A directory with these runs is opened, and reads as any tree that says the
    same. -/
theorem Stored.reopened {dir order : Dir} {runs runs' : List (Nat × List Entry)}
    (h : Stored multi dir runs) (hperm : order.Perm dir) (hth : 1 ≤ threshold) (hl : l.Holds runs')
    (hm : l.multi = multi)
    (hlive : ∀ g, live (top (group multi) (layers runs) g) = live (newest l runs' g)) :
    ∃ l', lsm_open_multi order threshold multi = some l' ∧ SameReads l' l := by
  obtain ⟨l', hopen, hm', hmem, hl'⟩ := h.opened hperm hth
  refine ⟨l', hopen, hl'.sameReads hl (hm'.trans hm.symm) fun g => ?_⟩
  rw [← hlive, newest, hmem, hm', top_cons]
  rfl

/-- Flush and compaction are crash safe.  Killed inside a flush, a tree is
    reopened as its tables, or as the whole tree when the file was finished;
    killed inside a compaction, as its tables. -/
theorem lsm_crash_safe {multi : Bool} {l : LSM} (hl : Reached multi l) {threshold : Nat}
    (hth : 1 ≤ threshold) :
    (∀ d ∈ flush_points l, ∀ order : Dir, order.Perm d →
      ∃ l', lsm_open_multi order threshold multi = some l' ∧
        if d = (lsm_flush l).2.dir then SameReads l' l else SameReads l' (tables_only l)) ∧
    ∀ d ∈ compact_points l, ∀ order : Dir, order.Perm d →
      ∃ l', lsm_open_multi order threshold multi = some l' ∧ SameReads l' (tables_only l) := by
  obtain ⟨rfl, runs, h⟩ := hl.holds
  refine ⟨fun d hd order hperm => ?_, fun d hd order hperm => ?_⟩
  · have hpoint := h.flush_points hd
    split_ifs at hpoint ⊢ with hdone
    · obtain ⟨runs', hruns', hstored, hsame⟩ := hpoint
      refine hstored.reopened hperm hth h rfl fun g => ?_
      -- after the flush the memtable is empty, so the tables are the whole tree
      have hmem : (lsm_flush l).2.mem = [] := by
        rw [lsm_flush_eq]
        split_ifs with hmem
        · exact hmem
        · rfl
      rw [← hsame, newest, h.flush.2.1, hmem, top_cons]
      rfl
    · exact hpoint.reopened hperm hth h.tables_only rfl fun _ => rfl
  · obtain ⟨runs', hstored, hlive⟩ := h.compact_points hd
    exact hstored.reopened hperm hth h.tables_only rfl hlive

/-- A tree on an empty directory. -/
def new_tree (threshold : Nat) (multi : Bool) : LSM := ⟨threshold, multi, [], [], 1, []⟩

theorem new_tree_reached (h : 1 ≤ threshold) (multi : Bool) :
    Reached multi (new_tree threshold multi) := by
  refine .opened .empty (List.Perm.refl []) (?_ : lsm_open_multi [] threshold multi = _)
  rw [lsm_open_multi, if_neg (by omega)]
  rfl

theorem reached_run (h : Reached multi l) (calls : List (Call multi)) :
    Reached multi (run_calls l calls) := by
  induction calls generalizing l with
  | nil => exact h
  | cons c calls ih => exact ih (.call c h)

/-- The key 1 is put, deleted and flushed; no kill of the compaction that
    follows brings it back. -/
theorem lsm_crash_safe_deleted :
    Reached false (run_calls (new_tree 2 false) [.put 1 10, .put 2 20, .delete 1, .flush]) ∧
      ∀ d ∈ compact_points (run_calls (new_tree 2 false) [.put 1 10, .put 2 20, .delete 1, .flush]),
        ∃ l', lsm_open_multi d 2 false = some l' ∧ lsm_get l' 1 = none := by
  have hl : Reached false
      (run_calls (new_tree 2 false) [.put 1 10, .put 2 20, .delete 1, .flush]) :=
    reached_run (new_tree_reached (by decide) false) _
  refine ⟨hl, fun d hd => ?_⟩
  obtain ⟨l', hopen, hreads⟩ := (lsm_crash_safe hl (by decide : 1 ≤ 2)).2 d hd d (List.Perm.refl d)
  have hm : l'.multi = false := by
    rw [lsm_open_multi, if_neg (by decide)] at hopen
    cases hopen
    rfl
  exact ⟨l', hopen, (hreads.get hm 1).trans (by decide)⟩

/-! ### Multi mode -/

/-- What a call in multi mode does to a set of pairs. -/
def set_call (S : Set (Int × Int)) : Call true → Set (Int × Int)
  | .put_dup key val => insert (key, val) S
  | .delete_val key val => S \ {(key, val)}
  | .clear => ∅
  | .flush => S
  | .compact => S

/-- The pairs last put and not since deleted or cleared, after calls on a tree
    that held `S`. -/
def set_after (S : Set (Int × Int)) (calls : List (Call true)) : Set (Int × Int) :=
  calls.foldl set_call S

variable (h : ∀ k v, m (toLex (k, v)) = some v ↔ (k, v) ∈ S)

include h

theorem effect_set_call (c : Call true) (k v : Int) :
    c.effect m (toLex (k, v)) = some v ↔ (k, v) ∈ set_call S c := by
  cases c with
  | put_dup key val =>
    by_cases heq : (k, v) = (key, val)
    · simp_all [Call.effect, set_call]
    · simp [Call.effect, set_call, h, heq]
  | delete_val key val =>
    by_cases heq : (k, v) = (key, val)
    · simp_all [Call.effect, set_call]
    · simp [Call.effect, set_call, h, heq]
  | clear => simp [Call.effect, set_call]
  | flush => exact h k v
  | compact => exact h k v

theorem effect_set_after (calls : List (Call true)) (k v : Int) :
    calls.foldl Call.effect m (toLex (k, v)) = some v ↔ (k, v) ∈ set_after S calls := by
  induction calls generalizing m S with
  | nil => exact h k v
  | cons c calls ih => exact ih (effect_set_call h c)

theorem LSM.Contains.find_all (hl : l.Contains true m) (key : Int) :
    ((lsm_find_all l key).Pairwise fun a b => toLex a < toLex b) ∧
      ∀ k v, (k, v) ∈ lsm_find_all l key ↔ (k, v) ∈ S ∧ k = key := by
  obtain ⟨hm, runs, hruns, hval⟩ := hl
  obtain ⟨hasc, hmem⟩ := hruns.find_all key
  rw [hm] at hasc hmem
  exact ⟨hasc, fun k v => by rw [hmem, hval]; exact and_congr_left' (h k v)⟩

theorem LSM.Contains.scan (hl : l.Contains true m) (lo hi : Int) :
    ((lsm_scan l lo hi).Pairwise fun a b => toLex a < toLex b) ∧
      ∀ k v, (k, v) ∈ lsm_scan l lo hi ↔ (k, v) ∈ S ∧ lo ≤ k ∧ k ≤ hi := by
  obtain ⟨hm, runs, hruns, hval⟩ := hl
  obtain ⟨hasc, hmem⟩ := hruns.scan lo hi
  rw [hm] at hasc hmem
  exact ⟨hasc, fun k v => by rw [hmem, hval]; exact and_congr_left' (h k v)⟩

/-- The pairs of a tree in multi mode. -/
def pairs (l : LSM) : Set (Int × Int) := { p | p ∈ lsm_find_all l p.1 }

omit h

/-- In multi mode the tree is a finite set of pairs: the pairs of a key and the
    pairs of a range are visited once each, in increasing order.  The tree may
    be opened on an empty directory or on what an earlier one left there. -/
theorem lsm_refines_set {dir order : Dir} (hdir : OnDisk true dir) (hperm : order.Perm dir)
    {threshold : Nat} (hth : 1 ≤ threshold) (calls : List (Call true)) :
    ∃ l₀, lsm_open_multi order threshold true = some l₀ ∧ (dir = [] → pairs l₀ = ∅) ∧
      (∀ key, ((lsm_find_all (run_calls l₀ calls) key).Pairwise fun a b => toLex a < toLex b) ∧
        ∀ k v, (k, v) ∈ lsm_find_all (run_calls l₀ calls) key ↔
          (k, v) ∈ set_after (pairs l₀) calls ∧ k = key) ∧
      ∀ lo hi, ((lsm_scan (run_calls l₀ calls) lo hi).Pairwise fun a b => toLex a < toLex b) ∧
        ∀ k v, (k, v) ∈ lsm_scan (run_calls l₀ calls) lo hi ↔
          (k, v) ∈ set_after (pairs l₀) calls ∧ lo ≤ k ∧ k ≤ hi := by
  obtain ⟨runs₀, hstored⟩ := hdir.stored
  obtain ⟨l₀, hopen, hm₀, hmem₀, h₀⟩ := hstored.opened hperm hth
  have hcont : l₀.Contains true fun g => live (newest l₀ runs₀ g) := ⟨hm₀, runs₀, h₀, fun _ => rfl⟩
  have hl := hcont.run calls
  have hstart : ∀ k v, live (newest l₀ runs₀ (toLex (k, v))) = some v ↔ (k, v) ∈ pairs l₀ := by
    intro k v
    have := (h₀.find_all k).2 k v
    rw [hm₀] at this
    exact ⟨fun hv => this.2 ⟨hv, rfl⟩, fun hv => (this.1 hv).1⟩
  have hset : ∀ k v, calls.foldl Call.effect (fun g => live (newest l₀ runs₀ g)) (toLex (k, v)) =
      some v ↔ (k, v) ∈ set_after (pairs l₀) calls := effect_set_after hstart calls
  refine ⟨l₀, hopen, ?_, hl.find_all hset, hl.scan hset⟩
  rintro rfl
  have hnil : runs₀ = [] := eq_nil_iff_forall_not_mem.2 fun r hr => by
    simpa using hstored.files r hr
  refine Set.eq_empty_iff_forall_notMem.2 fun p hp => ?_
  have := (hstart p.1 p.2).2 hp
  rw [newest, hmem₀, hnil] at this
  cases this

/-- The pair (1, 10) is deleted and put again around a flush and a compaction,
    (1, 11) is deleted. -/
theorem lsm_refines_set_put_again : ∃ l₀, lsm_open_multi [] 2 true = some l₀ ∧
    (1, 10) ∈ lsm_find_all (run_calls l₀ [.put_dup 1 10, .put_dup 1 11, .delete_val 1 10, .flush,
      .put_dup 1 10, .compact, .delete_val 1 11]) 1 ∧
    (1, 11) ∉ lsm_find_all (run_calls l₀ [.put_dup 1 10, .put_dup 1 11, .delete_val 1 10, .flush,
      .put_dup 1 10, .compact, .delete_val 1 11]) 1 := by
  obtain ⟨l₀, hopen, -, hfind, -⟩ := lsm_refines_set .empty (List.Perm.refl []) (by decide : 1 ≤ 2)
    [.put_dup 1 10, .put_dup 1 11, .delete_val 1 10, .flush, .put_dup 1 10, .compact,
      .delete_val 1 11]
  refine ⟨l₀, hopen, ((hfind 1).2 1 10).2 ?_, fun h => ?_⟩
  · simp [set_after, set_call]
  · simpa [set_after, set_call] using ((hfind 1).2 1 11).1 h

end MiniDb.Lsm
