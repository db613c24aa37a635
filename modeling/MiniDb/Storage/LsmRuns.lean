import MiniDb.Storage.LsmTables

/-! # The LSM tree as layered runs

  `LSM.Holds l runs` reads a tree as layered runs: the memtable in front of
  the tables, newest first.  What the tree contains is what the layered lookup
  finds and is not a tombstone.  Every read is that lookup, and every call
  keeps the invariant and changes the contents as its name says. -/

namespace MiniDb.Lsm

open Framework List Function

/-! ### The tree as layers -/

/-- The directory holds the runs, the open tables are theirs, and the memtable
    is one more run. -/
structure LSM.Holds (l : LSM) (runs : List (Nat × List Entry)) : Prop where
  stored : Stored l.multi l.dir runs
  ssts : l.ssts = runs.map fun r => table r.1 r.2
  mem : Asc (group l.multi) l.mem
  next : ∀ r ∈ runs, r.1 < l.next_seq

/-- The tables, newest first. -/
def layers (runs : List (Nat × List Entry)) : List (List Entry) := (runs.map Prod.snd).reverse

/-- What a tree with these runs says about a group. -/
def newest (l : LSM) (runs : List (Nat × List Entry)) (g : Int ×ₗ Int) : Option Entry :=
  top (group l.multi) (l.mem :: layers runs) g

/-- The tables with their priorities, newest first. -/
def tagged (runs : List (Nat × List Entry)) : List (List Entry × WithTop Nat) :=
  (runs.map fun r => (r.2, (r.1 : WithTop Nat))).reverse

variable (runs : List (Nat × List Entry))

theorem tagged_fst : (tagged runs).map Prod.fst = layers runs := by
  simp [tagged, layers, comp_def]

theorem sst_entries_perm :
    ((runs.map fun r => table r.1 r.2).flatMap sst_entries).Perm (entries (tagged runs)) := by
  have h : (runs.map fun r => table r.1 r.2).flatMap sst_entries =
      entries (runs.map fun r => (r.2, (r.1 : WithTop Nat))) := by
    simp [entries, flatMap_map, sst_entries_table]
  rw [h, tagged]
  exact (reverse_perm _).symm.flatMap_right _

theorem lsm_flush_eq (l : LSM) : lsm_flush l =
    if l.mem = [] then (0, l)
    else (0, { l with
      mem := []
      ssts := l.ssts ++ [table l.next_seq l.mem]
      next_seq := l.next_seq + 1
      dir := dir_write l.dir l.next_seq (sst_words l.mem) }) := by
  rw [lsm_flush]
  simp only [sst_open_words]

theorem lsm_compact_eq (l : LSM) : lsm_compact l =
    if l.ssts = [] then (0, l)
    else if (l.ssts.map SSTable.count).sum = 0 then (0, l)
    else (0, { l with
      ssts := [table l.next_seq (compacted l)]
      next_seq := l.next_seq + 1
      dir := unlink_all (dir_write l.dir l.next_seq (sst_words (compacted l))) l.ssts }) := by
  rw [lsm_compact]
  simp only [sst_open_words]

namespace LSM.Holds

variable {l : LSM} {runs : List (Nat × List Entry)}

variable (h : l.Holds runs)

include h

theorem tables_layered : Layered (group l.multi) (tagged runs) where
  asc t ht := by
    obtain ⟨r, hr, rfl⟩ := mem_map.1 (mem_reverse.1 ht)
    exact h.stored.asc r hr
  newer := by
    refine pairwise_reverse.2 (pairwise_map.2 (h.stored.order.imp fun hlt => ?_))
    exact WithTop.coe_lt_coe.2 hlt

theorem layered : Layered (group l.multi) ((l.mem, ⊤) :: tagged runs) where
  asc t ht := by
    rcases mem_cons.1 ht with rfl | ht
    · exact h.mem
    · exact h.tables_layered.asc t ht
  newer := by
    refine pairwise_cons.2 ⟨fun t ht => ?_, h.tables_layered.newer⟩
    obtain ⟨r, -, rfl⟩ := mem_map.1 (mem_reverse.1 ht)
    exact WithTop.coe_lt_top _

/-- The walk of a scan: the newest version of every group, in ascending order. -/
theorem collected :
    Asc (group l.multi) ((heads (same_group l.multi) (collect_all l)).map Prod.fst) ∧
      ∀ e, e ∈ (heads (same_group l.multi) (collect_all l)).map Prod.fst ↔
        newest l runs (group l.multi e) = some e := by
  have hperm : (l.mem.map (fun e => (e, (⊤ : WithTop Nat))) ++ l.ssts.flatMap sst_entries).Perm
      (entries ((l.mem, ⊤) :: tagged runs)) := by
    rw [h.ssts]
    exact (sst_entries_perm runs).append_left _
  have hmerge := h.layered.merge (fun a b => same_group_iff) hperm
  rw [map_cons, tagged_fst] at hmerge
  rw [collect_all, sort_merge_eq]
  exact hmerge

/-- A point read is the layered lookup. -/
theorem get (hm : l.multi = false) (key : Int) :
    lsm_get l key = live (newest l runs (toLex (key, 0))) := by
  have hmem := h.mem
  have hasc := h.stored.asc
  rw [hm] at hmem hasc
  -- a stand-in for the key, which is all that `group` looks at here
  have hcut := mem_bsearch_cut hmem ⟨key, 0, false⟩
  have hfind := hcut.run_find hmem
  have htables : l.ssts.reverse.findSome? (fun s => sst_get s key) =
      top (group false) (layers runs) (toLex (key, 0)) := by
    have hruns : ∀ r ∈ runs.reverse, sst_get (table r.1 r.2) key =
        run_find (group false) r.2 (toLex (key, 0)) :=
      fun r hr => sst_get_table (hasc r (mem_reverse.1 hr)) r.1 ⟨key, 0, false⟩
    have hwalk := congrArg (findSome? id) (map_congr_left hruns)
    rw [findSome?_map, findSome?_map] at hwalk
    rw [h.ssts, layers, top, ← map_reverse, ← map_reverse, findSome?_map,
      findSome?_map]
    exact hwalk
  rw [lsm_get, newest, top_cons, hm, htables]
  change run_find (group false) l.mem (toLex (key, 0)) = _ at hfind
  rw [hfind]
  revert hcut
  dsimp only
  rcases mem_bsearch l key with ⟨pos, _ | _⟩ <;> intro hcut
  · rfl
  · obtain ⟨hlt, -⟩ := hcut.hit rfl
    simp [getElem?_eq_getElem hlt]

/-! ### The calls -/

theorem write (e : Entry) :
    (write l e).Holds runs ∧ (Lsm.write l e).multi = l.multi ∧
      ∀ g, newest (Lsm.write l e) runs g =
        if g = group l.multi e then some e else newest l runs g := by
  obtain ⟨mem, hw, hasc, hfind⟩ := write_spec h.mem e
  rw [hw]
  refine ⟨⟨h.stored, h.ssts, hasc, h.next⟩, rfl, fun g => ?_⟩
  rw [newest, newest, top_cons, top_cons, hfind g]
  split <;> rfl

omit h in
theorem layers_append (rs rs' : List (Nat × List Entry)) :
    layers (rs ++ rs') = layers rs' ++ layers rs := by
  simp [layers]

/-- A flush succeeds and changes nothing that is read. -/
theorem flush :
    (lsm_flush l).1 = 0 ∧ (lsm_flush l).2.multi = l.multi ∧
      ∃ runs', (lsm_flush l).2.Holds runs' ∧ ∀ g, newest (lsm_flush l).2 runs' g = newest l runs g := by
  rw [lsm_flush_eq]
  split
  case isTrue _ => exact ⟨rfl, rfl, runs, h, fun _ => rfl⟩
  case isFalse _ =>
    refine ⟨rfl, rfl, runs ++ [(l.next_seq, l.mem)],
      ⟨h.stored.write h.next h.mem, by simp [h.ssts], .nil, fun r hr => ?_⟩, fun g => ?_⟩
    · rcases mem_append.1 hr with hr | hr
      · exact (h.next r hr).trans (Nat.lt_succ_self _)
      · rw [mem_singleton.1 hr]
        exact Nat.lt_succ_self _
    · rw [newest, newest, layers_append, top_cons]
      rfl

theorem maybe_flush :
    (maybe_flush l).1 = 0 ∧ (Lsm.maybe_flush l).2.multi = l.multi ∧
      ∃ runs', (Lsm.maybe_flush l).2.Holds runs' ∧
        ∀ g, newest (Lsm.maybe_flush l).2 runs' g = newest l runs g := by
  rw [Lsm.maybe_flush]
  split
  · exact h.flush
  · exact ⟨rfl, rfl, runs, h, fun _ => rfl⟩

/-- Unlinking the open tables leaves no table. -/
theorem unlinked : Stored l.multi (unlink_all l.dir l.ssts) [] := by
  rw [h.ssts]
  exact Stored.unlink_all (by simpa using h.stored)

theorem clear : (lsm_clear l).Holds [] ∧ ∀ g, newest (lsm_clear l) [] g = none :=
  ⟨⟨h.unlinked, rfl, .nil, by simp⟩, fun _ => rfl⟩

/-- What compaction writes: the live versions of the tables. -/
theorem compacted :
    Asc (group l.multi) (compacted l) ∧
      ∀ g, run_find (group l.multi) (Lsm.compacted l) g =
        (top (group l.multi) (layers runs) g).filter fun e => !e.tomb := by
  have hperm : (l.ssts.flatMap sst_entries).Perm (entries (tagged runs)) := by
    rw [h.ssts]
    exact sst_entries_perm runs
  obtain ⟨hasc, hmem⟩ := h.tables_layered.merge (fun a b => same_group_iff) hperm
  rw [tagged_fst] at hmem
  rw [← sort_merge_eq] at hasc hmem
  have heq : Lsm.compacted l = ((heads (same_group l.multi)
      (sort_merge l.multi (l.ssts.flatMap sst_entries))).map Prod.fst).filter fun e => !e.tomb := by
    rw [Lsm.compacted, filter_map]
    refine map_congr_left fun cur hcur => ?_
    have : cur.1.tomb = false := by simpa using (mem_filter.1 hcur).2
    rw [← this]
  have hasc' : Asc (group l.multi) (Lsm.compacted l) := heq ▸ hasc.filter _
  refine ⟨hasc', fun g => Option.ext fun e => ?_⟩
  rw [run_find_eq_some hasc', heq, mem_filter, hmem, Option.filter_eq_some_iff]
  constructor
  · rintro ⟨⟨htop, hlive⟩, rfl⟩
    exact ⟨htop, hlive⟩
  · rintro ⟨htop, hlive⟩
    obtain rfl := top_mem htop
    exact ⟨⟨htop, hlive⟩, rfl⟩

omit h in
theorem live_filter (o : Option Entry) : live (o.filter fun e => !e.tomb) = live o := by
  rcases o with _ | ⟨k, v, _ | _⟩ <;> rfl

/-- Compaction succeeds and every group keeps its value; a tombstone and no
    version are the same to a reader. -/
theorem compact :
    (lsm_compact l).1 = 0 ∧ (lsm_compact l).2.multi = l.multi ∧
      ∃ runs', (lsm_compact l).2.Holds runs' ∧
        ∀ g, live (newest (lsm_compact l).2 runs' g) = live (newest l runs g) := by
  rw [lsm_compact_eq]
  split_ifs
  · exact ⟨rfl, rfl, runs, h, fun _ => rfl⟩
  · exact ⟨rfl, rfl, runs, h, fun _ => rfl⟩
  · obtain ⟨hasc, hfind⟩ := h.compacted
    refine ⟨rfl, rfl, [(l.next_seq, Lsm.compacted l)], ⟨?_, rfl, h.mem, by simp⟩, fun g => ?_⟩
    · rw [h.ssts]
      exact Stored.unlink_all (h.stored.write h.next hasc)
    rw [newest, newest, top_cons, top_cons]
    change live ((run_find (group l.multi) l.mem g).or
      (top (group l.multi) [Lsm.compacted l] g)) = _
    rw [top_cons, top_nil, Option.or_none, hfind]
    cases run_find (group l.multi) l.mem g with
    | none => exact live_filter _
    | some e => rfl

/-! ### Scans -/

omit h in
theorem live_eq_some {o : Option Entry} {v : Int} :
    live o = some v ↔ ∃ e, o = some e ∧ e.tomb = false ∧ e.val = v := by
  rcases o with _ | ⟨k, w, _ | _⟩ <;> simp [live]

/-- What a scan with the test `p` on keys visits: the live pairs whose key
    passes, ascending. -/
theorem visited (p : Int → Bool) {xs : List (Int × Int)}
    (hxs : xs = ((heads (same_group l.multi) (collect_all l)).filter fun cur =>
      p cur.1.key && !cur.1.tomb).map fun cur => (cur.1.key, cur.1.val)) :
    (xs.Pairwise fun a b => group l.multi ⟨a.1, a.2, false⟩ < group l.multi ⟨b.1, b.2, false⟩) ∧
      ∀ k v, (k, v) ∈ xs ↔
        live (newest l runs (group l.multi ⟨k, v, false⟩)) = some v ∧ p k = true := by
  obtain ⟨hasc, hmem⟩ := h.collected
  -- the tombstone bit is no part of the group
  have hgroup : ∀ e : Entry, group l.multi ⟨e.key, e.val, false⟩ = group l.multi e := fun _ => rfl
  subst hxs
  constructor
  · refine pairwise_map.2 (List.Pairwise.filter _ ?_)
    exact (pairwise_map.1 hasc).imp fun hlt => by simpa only [hgroup] using hlt
  · intro k v
    rw [live_eq_some]
    constructor
    · intro hkv
      obtain ⟨cur, hcur, heq⟩ := mem_map.1 hkv
      obtain ⟨hcur, htest⟩ := mem_filter.1 hcur
      simp only [Bool.and_eq_true, Bool.not_eq_true'] at htest
      obtain ⟨rfl, rfl⟩ := Prod.mk.injEq .. ▸ heq
      exact ⟨⟨cur.1, (hmem cur.1).1 (mem_map_of_mem hcur), htest.2, rfl⟩, htest.1⟩
    · rintro ⟨⟨e, hnew, htomb, rfl⟩, hp⟩
      have hg : group l.multi e = group l.multi ⟨k, e.val, false⟩ := top_mem hnew
      obtain rfl : e.key = k := (group_eq.1 hg).1
      obtain ⟨cur, hcur, rfl⟩ := mem_map.1 ((hmem e).2 hnew)
      exact mem_map.2 ⟨cur, mem_filter.2 ⟨hcur, by simp [hp, htomb]⟩, rfl⟩

theorem scan (lo hi : Int) :
    ((lsm_scan l lo hi).Pairwise fun a b =>
        group l.multi ⟨a.1, a.2, false⟩ < group l.multi ⟨b.1, b.2, false⟩) ∧
      ∀ k v, (k, v) ∈ lsm_scan l lo hi ↔
        live (newest l runs (group l.multi ⟨k, v, false⟩)) = some v ∧ lo ≤ k ∧ k ≤ hi := by
  rw [lsm_scan]
  split
  case isTrue hlt =>
    refine ⟨.nil, fun k v => ⟨nofun, fun ⟨_, h₁, h₂⟩ => ?_⟩⟩
    omega
  case isFalse _ =>
    obtain ⟨hasc, hmem⟩ := h.visited (fun k => !(k < lo || hi < k)) rfl
    refine ⟨hasc, fun k v => ?_⟩
    rw [hmem]
    simp

theorem find_all (key : Int) :
    ((lsm_find_all l key).Pairwise fun a b =>
        group l.multi ⟨a.1, a.2, false⟩ < group l.multi ⟨b.1, b.2, false⟩) ∧
      ∀ k v, (k, v) ∈ lsm_find_all l key ↔
        live (newest l runs (group l.multi ⟨k, v, false⟩)) = some v ∧ k = key := by
  obtain ⟨hasc, hmem⟩ := h.visited (fun k => k = key) rfl
  exact ⟨hasc, fun k v => by rw [lsm_find_all, hmem]; simp⟩

end LSM.Holds

/-! ### Runs of calls -/

/-- The calls of a tree in unique mode (`false`) and in multi mode (`true`). -/
inductive Call : Bool → Type where
  | put (key val : Int) : Call false
  | delete (key : Int) : Call false
  | put_dup (key val : Int) : Call true
  | delete_val (key val : Int) : Call true
  | clear {multi : Bool} : Call multi
  | flush {multi : Bool} : Call multi
  | compact {multi : Bool} : Call multi

def Call.run {multi : Bool} (l : LSM) : Call multi → Int × LSM
  | .put key val => lsm_put l key val
  | .delete key => lsm_delete l key
  | .put_dup key val => lsm_put_dup l key val
  | .delete_val key val => lsm_delete_val l key val
  | .clear => (0, lsm_clear l)
  | .flush => lsm_flush l
  | .compact => lsm_compact l

def run_calls {multi : Bool} (l : LSM) (calls : List (Call multi)) : LSM :=
  calls.foldl (fun l c => (c.run l).2) l

/-- What a call does to the contents, a map from groups to values. -/
def Call.effect {multi : Bool} (m : Int ×ₗ Int → Option Int) :
    Call multi → Int ×ₗ Int → Option Int
  | .put key val => Function.update m (toLex (key, 0)) (some val)
  | .delete key => Function.update m (toLex (key, 0)) none
  | .put_dup key val => Function.update m (toLex (key, val)) (some val)
  | .delete_val key val => Function.update m (toLex (key, val)) none
  | .clear => fun _ => none
  | .flush => m
  | .compact => m

/-- The tree is in the mode and has these contents. -/
def LSM.Contains (multi : Bool) (l : LSM) (m : Int ×ₗ Int → Option Int) : Prop :=
  l.multi = multi ∧ ∃ runs, l.Holds runs ∧ ∀ g, live (newest l runs g) = m g

variable {m : Int ×ₗ Int → Option Int} {multi : Bool} {m' : Int → Option Int} {l : LSM}

/-- A version is written and the memtable flushed when it is full. -/
theorem LSM.Contains.put (h : l.Contains multi m) (e : Entry) :
    (maybe_flush (write l e)).1 = 0 ∧
      (maybe_flush (write l e)).2.Contains multi (update m (group multi e) (live (some e))) := by
  obtain ⟨rfl, runs, hruns, hm⟩ := h
  obtain ⟨hw, hmulti, hnew⟩ := hruns.write e
  obtain ⟨hrc, hmulti', runs', hruns', hsame⟩ := hw.maybe_flush
  refine ⟨hrc, hmulti'.trans hmulti, runs', hruns', fun g => ?_⟩
  rw [hsame, hnew, update_apply, ← hm]
  split <;> rfl

/-- Every call succeeds and has its effect on the contents. -/
theorem LSM.Contains.call (h : l.Contains multi m) (c : Call multi) :
    (c.run l).1 = 0 ∧ (c.run l).2.Contains multi (c.effect m) := by
  cases c with
  | put key val =>
    have hput := h.put ⟨key, val, false⟩
    rw [write_unique h.1] at hput
    exact hput
  | delete key =>
    have hput := h.put ⟨key, 0, true⟩
    rw [write_unique h.1] at hput
    exact hput
  | put_dup key val =>
    have hput := h.put ⟨key, val, false⟩
    rw [write_multi h.1] at hput
    exact hput
  | delete_val key val =>
    have hput := h.put ⟨key, val, true⟩
    rw [write_multi h.1] at hput
    exact hput
  | clear =>
    obtain ⟨hm, runs, hruns, -⟩ := h
    exact ⟨rfl, hm, [], hruns.clear.1, fun g => congrArg live (hruns.clear.2 g)⟩
  | flush =>
    obtain ⟨hm, runs, hruns, hcont⟩ := h
    obtain ⟨hrc, hmulti, runs', hruns', hsame⟩ := hruns.flush
    exact ⟨hrc, hmulti.trans hm, runs', hruns', fun g => (congrArg live (hsame g)).trans (hcont g)⟩
  | compact =>
    obtain ⟨hm, runs, hruns, hcont⟩ := h
    obtain ⟨hrc, hmulti, runs', hruns', hsame⟩ := hruns.compact
    exact ⟨hrc, hmulti.trans hm, runs', hruns', fun g => (hsame g).trans (hcont g)⟩

theorem LSM.Contains.run (h : l.Contains multi m)
    (calls : List (Call multi)) :
    (run_calls l calls).Contains multi (calls.foldl Call.effect m) := by
  induction calls generalizing l m with
  | nil => exact h
  | cons c calls ih => exact ih (h.call c).2

/-! ### Unique mode -/

/-- What a call in unique mode does to a map from keys to values. -/
def map_call (m : Int → Option Int) : Call false → Int → Option Int
  | .put key val => Function.update m key (some val)
  | .delete key => Function.update m key none
  | .clear => fun _ => none
  | .flush => m
  | .compact => m

/-- The value of the last put of each key that no delete or clear follows. -/
def map_after (calls : List (Call false)) : Int → Option Int :=
  calls.foldl map_call fun _ => none

/-- The contents of a tree in unique mode are the map. -/
theorem effect_map_call (h : ∀ k, m (toLex (k, 0)) = m' k) (c : Call false)
    (k : Int) : c.effect m (toLex (k, 0)) = map_call m' c k := by
  cases c <;> simp [Call.effect, map_call, update_apply, h]

theorem effect_map_after (h : ∀ k, m (toLex (k, 0)) = m' k)
    (calls : List (Call false)) (k : Int) :
    calls.foldl Call.effect m (toLex (k, 0)) = calls.foldl map_call m' k := by
  induction calls generalizing m m' with
  | nil => exact h k
  | cons c calls ih => exact ih (effect_map_call h c)

/-- An empty directory is opened as an empty tree. -/
theorem open_empty {threshold : Nat} (h : 1 ≤ threshold) (multi : Bool) :
    ∃ l, lsm_open_multi [] threshold multi = some l ∧ l.Contains multi fun _ => none := by
  refine ⟨_, by rw [lsm_open_multi, if_neg (by omega)], rfl, [], ?_, fun g => rfl⟩
  exact ⟨.empty, rfl, .nil, by simp⟩

/-- In unique mode the tree is a finite map: a point read is the value of the
    last put of the key that no delete follows, and a scan visits the live pairs
    of its range once each, by increasing key. -/
theorem lsm_refines_map (threshold : Nat) (hth : 1 ≤ threshold) (calls : List (Call false)) :
    ∃ l₀, lsm_open [] threshold = some l₀ ∧
      (∀ k, lsm_get (run_calls l₀ calls) k = map_after calls k) ∧
      ∀ lo hi, ((lsm_scan (run_calls l₀ calls) lo hi).Pairwise fun a b => a.1 < b.1) ∧
        ∀ k v, (k, v) ∈ lsm_scan (run_calls l₀ calls) lo hi ↔
          map_after calls k = some v ∧ lo ≤ k ∧ k ≤ hi := by
  obtain ⟨l₀, hopen, hcont⟩ := open_empty hth false
  obtain ⟨hm, runs, hruns, hval⟩ := hcont.run calls
  have hmap : ∀ k, live (newest (run_calls l₀ calls) runs (toLex (k, 0))) = map_after calls k :=
    fun k => (hval _).trans (effect_map_after (fun _ => rfl) calls k)
  refine ⟨l₀, hopen, fun k => (hruns.get hm k).trans (hmap k), fun lo hi => ?_⟩
  obtain ⟨hasc, hmem⟩ := hruns.scan lo hi
  rw [hm] at hasc hmem
  refine ⟨hasc.imp fun hlt => by simpa [group_lt] using hlt, fun k v => ?_⟩
  rw [hmem, ← hmap k]
  rfl

theorem lsm_refines_map_two : ∃ l₀, lsm_open [] 2 = some l₀ ∧
    lsm_get (run_calls l₀ [.put 1 10, .put 2 20, .delete 1, .flush, .compact, .put 2 21]) 2 =
      some 21 ∧
    lsm_get (run_calls l₀ [.put 1 10, .put 2 20, .delete 1, .flush, .compact, .put 2 21]) 1 =
      none := by
  obtain ⟨l₀, hopen, hget, -⟩ := lsm_refines_map 2 (by decide)
    [.put 1 10, .put 2 20, .delete 1, .flush, .compact, .put 2 21]
  exact ⟨l₀, hopen, (hget 2).trans (by decide), (hget 1).trans (by decide)⟩

end MiniDb.Lsm
