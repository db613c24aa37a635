import MiniDb.Db.SecIndexes

/-! # Completeness of secondary indexes

  The invariant of `SecIndexes` along runs.  What an index lacks is `Gone`: no
  session sees it and no snapshot of the future will.  The condition for that
  is on CREATE INDEX alone, which must not find a row that its own session does
  not see and another one does, or a later one will. -/

namespace MiniDb

open Framework List

/-! ### Versions nobody will see -/

/-- What transaction `x` has left at this address is seen by nobody, also after
    a rollback of the table's writer. -/
structure Gone (d : TxnState) (t : Table) (r : Rid) (x : Nat) : Prop where
  ended : Finished d x
  heap : ∀ rec, heap_get t.heap r = some rec → rec.xmin = x → Settled d rec ∧ Hidden d rec
  undo : t.writer_txn ≠ 0 →
    ∀ rec, heap_get t.undo.heap r = some rec → rec.xmin = x → Settled d rec ∧ Hidden d rec

section Gone

variable {d d' : TxnState} {t t' : Table} {r : Rid} {x : Nat} {st : Statement}

theorem Running.ne_cur (hr : Running d d') (hx : Finished d x) : x ≠ d'.cur_txn := by
  cases hr with
  | session lm => exact hx.ne_own d.cur_session
  | auto lm => exact ne_of_lt hx.lt

theorem Gone.heap_move (h : Gone d t r x) (hr : Running d d')
    (hcur : d.cur_session < DB_MAX_SESSIONS) (hm : HeapMove d' st t t') : Gone d t' r x := by
  have hundo : t'.writer_txn = d'.cur_txn → t'.undo = (t.begin_write d'.cur_txn).undo →
      t'.writer_txn ≠ 0 →
      ∀ rec, heap_get t'.undo.heap r = some rec → rec.xmin = x → Settled d rec ∧ Hidden d rec := by
    intro hwriter hundo hw
    rw [hundo]
    unfold Table.begin_write
    split
    · next heq => exact h.undo (heq ▸ hwriter ▸ hw)
    · exact h.heap
  cases hm with
  | calm hheap hwriter hback =>
    refine ⟨h.ended, ?_, ?_⟩
    · rw [hheap]
      exact h.heap
    · rw [hwriter, hback]
      exact h.undo
  | write rids _ hrids hw hwriter hback =>
    refine ⟨h.ended, fun rec hget hmin => ?_, hundo hwriter hback⟩
    rcases hw.origin r rec hget with ⟨-, hnew, -⟩ | ⟨old, hold, rfl | ⟨hrid, rfl⟩⟩
    · exact absurd (hmin.symm.trans hnew) (hr.ne_cur h.ended)
    · exact h.heap rec hold hmin
    · -- only what the statement sees is stamped
      obtain ⟨old', hold', hvis⟩ := hrids.visible r hrid
      rw [hold] at hold'
      cases hold'
      obtain ⟨hset, hhid⟩ := h.heap old hold hmin
      rw [hhid.not_visible hset hcur hr] at hvis
      cases hvis
  | vacuum _ _ hheap hwriter hback =>
    refine ⟨h.ended, fun rec hget hmin => ?_, hundo hwriter hback⟩
    rw [hheap] at hget
    exact h.heap rec (heap_get_vacuum.mp hget).1 hmin

theorem Gone.txn_move (h : Gone d t r x) (hm : TxnMove d d') : Gone d' t r x where
  ended := h.ended.move hm
  heap rec hget hmin := by
    obtain ⟨hset, hhid⟩ := h.heap rec hget hmin
    exact ⟨hset.move hm, hhid.move hset hm⟩
  undo hw rec hget hmin := by
    obtain ⟨hset, hhid⟩ := h.undo hw rec hget hmin
    exact ⟨hset.move hm, hhid.move hset hm⟩

theorem Gone.finish (h : Gone d t r x) {txn : Nat} (h0 : txn ≠ 0) (ok : Bool) :
    Gone d (t.finish txn ok) r x := by
  unfold Table.finish Table.commit Table.abort
  split
  · split
    · exact h
    · exact ⟨h.ended, h.heap, fun hw => absurd rfl hw⟩
  · split
    · exact h
    · next heq => exact ⟨h.ended, h.undo (not_not.mp heq ▸ h0), fun hw => absurd rfl hw⟩

end Gone

/-! ### Conditions on statements -/

/-- What CREATE INDEX finds is seen by its session, or hidden from everyone. -/
def Statement.Covers (st : Statement) (d : TxnState) (t : Table) : Prop :=
  match st with
  | .create_index name table column => t.schema.table = table →
      ∀ col ∈ index_column t name column, ∀ x ∈ heap_scan t.heap,
        (version_entry col x).isSome = true → session_sees d d.session x.2 = true ∨ Hidden d x.2
  | _ => True

/-- Values written to an indexed column fit it. -/
def Statement.IndexedFit (st : Statement) (t : Table) : Prop :=
  match st with
  | .insert table vals => t.schema.table = table → ∀ si ∈ t.sec, ∀ v ∈ vals[si.col]?, v.Fits
  | .update table set_col set_val _ => t.schema.table = table →
      ∀ si ∈ t.sec, set_column t set_col set_val = some si.col → set_val.Fits
  | _ => True

instance (st : Statement) (d : TxnState) (t : Table) : Decidable (st.Covers d t) :=
  match st with
  | .create_index name table column => inferInstanceAs (Decidable (t.schema.table = table →
      ∀ col ∈ index_column t name column, ∀ x ∈ heap_scan t.heap,
        (version_entry col x).isSome = true → session_sees d d.session x.2 = true ∨ Hidden d x.2))
  | .create _ | .insert .. | .select _ | .delete .. | .update .. | .begin | .commit | .rollback
  | .vacuum _ | .session _ | .analyze _ => isTrue trivial

instance (st : Statement) (t : Table) : Decidable (st.IndexedFit t) :=
  match st with
  | .insert table vals => inferInstanceAs (Decidable (t.schema.table = table →
      ∀ si ∈ t.sec, ∀ v ∈ vals[si.col]?, v.Fits))
  | .update table set_col set_val _ => inferInstanceAs (Decidable (t.schema.table = table →
      ∀ si ∈ t.sec, set_column t set_col set_val = some si.col → set_val.Fits))
  | .create _ | .create_index .. | .select _ | .delete .. | .begin | .commit | .rollback
  | .vacuum _ | .session _ | .analyze _ => isTrue trivial

def index_covers (db : Database) (st : Statement) : Prop :=
  ∀ t ∈ db.tables, st.Covers db.toTxnState t

def indexed_fit (db : Database) (st : Statement) : Prop := ∀ t ∈ db.tables, st.IndexedFit t

instance (db : Database) (st : Statement) : Decidable (index_covers db st) :=
  inferInstanceAs (Decidable (∀ t ∈ db.tables, st.Covers db.toTxnState t))

instance (db : Database) (st : Statement) : Decidable (indexed_fit db st) :=
  inferInstanceAs (Decidable (∀ t ∈ db.tables, st.IndexedFit t))

variable {st st₁ : Statement}

theorem Statement.Covers.same {d : TxnState} {t : Table} (h : st.Covers d t)
    (hsame : SameWrite st st₁) : st₁.Covers d t := by
  cases st <;> cases st₁ <;> first | trivial | (cases hsame; exact h)

theorem Statement.IndexedFit.same {t : Table} (h : st.IndexedFit t)
    (hsame : SameWrite st st₁) : st₁.IndexedFit t := by
  cases st <;> cases st₁ <;> first | trivial | (cases hsame; exact h) |
    (obtain ⟨rfl, rfl, rfl⟩ := hsame; exact h)

/-! ### One statement -/

theorem insert_row_cols (t : Table) (txn : Nat) (vals : List Value) :
    (insert_row t txn vals).1.sec.map SecIndex.col = t.sec.map SecIndex.col := by
  unfold insert_row
  split
  · rfl
  split
  · rfl
  · rw [index_row_sec, map_map]
    rfl

theorem update_row_cols (txn sci : Nat) (set_val : Value) (t : Table) (rid : Rid) :
    (update_row txn sci set_val t rid).sec.map SecIndex.col = t.sec.map SecIndex.col := by
  rcases update_row_cases txn sci set_val t rid with heq | ⟨old, -, heq⟩ <;> rw [heq]
  exact insert_row_cols ..

theorem begin_write_sec (t : Table) (txn : Nat) : (t.begin_write txn).sec = t.sec := by
  unfold Table.begin_write
  split <;> rfl

theorem SecOk.move {fits : Prop} {d d' : TxnState} {st : Statement} {t t' : Table}
    (h : SecOk fits (Gone d t) t) (hok : HeapsOk t) (hstamped : TableStamped (Finished d) t)
    (hr : Running d d') (hcur : d.cur_session < DB_MAX_SESSIONS) (hm : TableMove d' st t t')
    (hcover : st.Covers d t) (hfit : fits → st.IndexedFit t) : SecOk fits (Gone d t') t' := by
  have hgone : ∀ r x, Gone d t r x → Gone d t' r x := fun r x hg => hg.heap_move hr hcur hm.heap
  have hbegin := h.begin_write d'.cur_txn
  have hokb := hok.begin_write d'.cur_txn
  cases hm with
  | same => exact h
  | analyze => exact ⟨fun si hsi => (h.cur si hsi).mono hgone, fun hw =>
      (h.undo hw).imp fun _ _ hi => hi.mono hgone⟩
  | create_index name table column _ col hname hcol =>
    have hzero : t.writer_txn = 0 := by
      by_contra hw
      unfold index_column at hcol
      rw [if_pos hw] at hcol
      cases hcol
    refine ⟨fun si hsi => ?_, fun hw => absurd hzero hw⟩
    rcases mem_append.mp hsi with hsi | hsi
    · exact (h.cur si hsi).mono hgone
    · rw [mem_singleton.mp hsi]
      refine secidx_build_ok hok.heap d' fun r rec hget hentry => ?_
      -- nobody writes, so the transactions of all versions have ended
      have hset : Settled d rec := by
        have hstamp := hstamped.heap r rec hget
        rw [hzero] at hstamp
        exact ⟨hstamp.1.of_zero, hstamp.2.imp_right Stamp.of_zero⟩
      rcases hcover hname col hcol (r, rec) (mem_heap_scan.mpr hget) hentry with hvis | hhid
      · exact .inl ((hset.visible hr).trans hvis)
      · refine .inr ⟨hset.1, fun rec' hget' _ => ?_, fun hw => absurd hzero hw⟩
        rw [show heap_get t.heap r = some rec' from hget'] at hget
        cases hget
        exact ⟨hset, hhid⟩
  | insert table vals _ hname hnull =>
    refine (hbegin.insert_row hokb.heap _ fun hf => ?_).mono hgone
    rw [begin_write_sec]
    exact hfit hf hname
  | delete table w _ rids =>
    exact (List.foldlRecOn rids _ hbegin fun u hu rid _ => hu.delete_row _ rid).mono hgone
  | update table set_col set_val w _ sci rids hname hcol hrids =>
    have hfold := List.foldlRecOn (motive := fun u : Table => SecOk fits (Gone d t) u ∧
        HeapOk u.heap ∧ u.sec.map SecIndex.col = t.sec.map SecIndex.col) rids
      (MiniDb.update_row d'.cur_txn sci set_val)
      ⟨hbegin, hokb.heap, congrArg _ (begin_write_sec ..)⟩ fun u hu rid _ => by
        obtain ⟨hsec, hheap, hcols⟩ := hu
        refine ⟨hsec.update_row hheap _ sci rid fun hf si hsi hsci => ?_,
          hheap.update_row _ _ _ rid, (update_row_cols ..).trans hcols⟩
        have hmem : si.col ∈ t.sec.map SecIndex.col := hcols ▸ mem_map_of_mem hsi
        obtain ⟨si₀, hsi₀, heq⟩ := mem_map.mp hmem
        exact hfit hf hname si₀ hsi₀ (by rw [hcol, hsci, heq])
    exact hfold.1.mono hgone
  | vacuum table _ hnone =>
    refine SecOk.mono ?_ hgone
    unfold vacuum_table
    have hsec := hbegin.vacuum_rows hokb.heap fun x => rec_dead d' x.2
    rwa [begin_write_heap] at hsec

/-! ### Runs -/

/-- The indexes of all tables, with what a session of the state may see. -/
structure SecInv (fits : Prop) (db : Database) : Prop where
  inv : DbInv db
  heaps : ∀ t ∈ db.tables, HeapsOk t
  sec : ∀ t ∈ db.tables, SecOk fits (Gone db.toTxnState t) t

theorem table_new_sec (fits : Prop) (E : Rid → Nat → Prop) (c : CreateStmt) (txn : Nat) :
    SecOk fits E ((table_new c).begin_write txn) := by
  refine SecOk.begin_write ⟨fun si hsi => ?_, fun hw => absurd rfl hw⟩ txn
  cases hsi

section Runs

variable {fits : Prop} {db db' : Database} {st : Statement}

theorem SecInv.step (h : SecInv fits db) (hstep : DbStep db st db')
    (hcover : ∀ t ∈ db.tables, st.Covers db.toTxnState t)
    (hfit : fits → ∀ t ∈ db.tables, st.IndexedFit t) : SecInv fits db' := by
  have hm := hstep.move
  have hheaps : ∀ t ∈ db'.tables, HeapsOk t :=
    hstep.keeps h.heaps (fun _ _ t ht _ hmv => (h.heaps t ht).move hmv)
      (fun _ txn ok _ ht => ht.finish txn ok) heaps_ok_new
  refine ⟨h.inv.step hstep, hheaps, ?_⟩
  refine hstep.keeps (fun t ht => ?_) (fun d hr t ht t' hmv => ?_)
    (fun t txn ok h0 hs => ?_) fun c _ => table_new_sec fits _ c _
  · exact (h.sec t ht).mono fun r x hg => hg.txn_move hm
  · exact ((h.sec t ht).move (h.heaps t ht) (h.inv.stamped t ht) hr h.inv.txn.cur_session hmv
      (hcover t ht) fun hf => hfit hf t ht).mono fun r x hg => hg.txn_move hm
  · have h0 := h0 h.inv.txn
    exact (hs.finish h0 ok).mono fun r x hg => hg.finish h0 ok

theorem sec_inv_in_run {db₀ : Database} {sts : List Statement} (hopen : SecInv fits db₀)
    (hrun : Steps db_step (fun db st => index_covers db st ∧ (fits → indexed_fit db st)) db₀ sts db) :
    SecInv fits db := by
  refine hrun.invariant (SecInv fits) (fun db st db' h hok hstep => ?_) hopen
  cases hstep
  obtain ⟨st₁, hsame, hstep⟩ := db_exec_step db st
  exact h.step hstep (fun t ht => (hok.1 t ht).same hsame)
    fun hf t ht => (hok.2 hf t ht).same hsame

end Runs

/-! ### The future of a version -/

variable {t : Table}

theorem forall₂_getElem? {R : Table → Table → Prop} {ts ts' : List Table}
    (h : List.Forall₂ R ts ts')
    {j : Nat} (ht : ts[j]? = some t) : ∃ t', ts'[j]? = some t' ∧ R t t' := by
  induction h generalizing j with
  | nil => cases ht
  | cons hr _ ih =>
    cases j with
    | zero =>
      cases ht
      exact ⟨_, rfl, hr⟩
    | succ j => exact ih ht

/-- A table stays where it is. -/
theorem Gone.step {db db' : Database} {st : Statement} {r : Rid} {x j : Nat}
    (hinv : DbInv db) (hstep : DbStep db st db') (ht : db.tables[j]? = some t)
    (h : Gone db.toTxnState t r x) :
    ∃ t', db'.tables[j]? = some t' ∧ Gone db'.toTxnState t' r x := by
  have hm := hstep.move
  have hcur := hinv.txn.cur_session
  cases hstep with
  | idle _ _ htab => exact ⟨t, htab ▸ ht, h.txn_move hm⟩
  | conflict _ htab => exact ⟨t, htab ▸ ht, h.txn_move hm⟩
  | begin _ _ htab => exact ⟨t, htab ▸ ht, h.txn_move hm⟩
  | switch _ _ _ htab => exact ⟨t, htab ▸ ht, h.txn_move hm⟩
  | stmt lm _ _ _ htab =>
    obtain ⟨t', ht', hmv⟩ := forall₂_getElem? htab ht
    exact ⟨t', ht', (h.heap_move (.session lm) hcur hmv.heap).txn_move hm⟩
  | auto lm ok _ _ ts created _ hmoves _ htab =>
    obtain ⟨t₁, ht₁, hmv⟩ := forall₂_getElem? hmoves ht
    refine ⟨t₁.finish db.next_txn ok, ?_, ?_⟩
    · rw [htab, List.getElem?_map, List.getElem?_append_left (List.getElem?_eq_some_iff.mp ht₁).1, ht₁]
      rfl
    · exact ((h.heap_move (.auto lm) hcur hmv.heap).txn_move hm).finish hinv.txn.next_ne ok
  | finish ok hin _ htab =>
    refine ⟨t.finish db.session.txn ok, ?_, (h.txn_move hm).finish (hinv.txn.txn_pos hin) ok⟩
    rw [htab, List.getElem?_map, ht]
    rfl

/-- Whatever is executed from here on, what transaction `x` wrote at this
    address of table `j` is hidden from all sessions and from new snapshots. -/
def NeverSeen (db : Database) (j : Nat) (r : Rid) (x : Nat) : Prop :=
  ∀ sts db', run db_step db sts = some db' → ∀ t', db'.tables[j]? = some t' →
    ∀ rec, heap_get t'.heap r = some rec → rec.xmin = x → Hidden db'.toTxnState rec

theorem Gone.never_seen {db : Database} {r : Rid} {x j : Nat} (hinv : DbInv db)
    (ht : db.tables[j]? = some t) (h : Gone db.toTxnState t r x) : NeverSeen db j r x := by
  intro sts db' hrun t' ht' rec hget hmin
  have hsteps : Steps db_step (fun _ _ => True) db sts db' := .of_run (fun _ _ _ => trivial) hrun
  obtain ⟨-, t₁, ht₁, hg⟩ := hsteps.invariant
    (fun db => DbInv db ∧ ∃ t, db.tables[j]? = some t ∧ Gone db.toTxnState t r x)
    (fun db st db' hP _ hs => by
      cases hs
      obtain ⟨hinv, t, ht, hg⟩ := hP
      obtain ⟨st₁, -, hstep⟩ := db_exec_step db st
      exact ⟨hinv.step hstep, hg.step hinv hstep ht⟩) ⟨hinv, t, ht, h⟩
  rw [ht'] at ht₁
  cases ht₁
  exact (hg.heap rec hget hmin).2

/-! ### Columns of indexes -/

/-- The column is the first one of its name. -/
def FirstNamed (schema : CreateStmt) (col : Nat) : Prop :=
  ∃ cd, schema.columns[col]? = some cd ∧ column_of schema cd.name = some col

theorem index_column_named {name column : String} {col : Nat}
    (h : index_column t name column = some col) : FirstNamed t.schema col := by
  unfold index_column at h
  split at h
  · cases h
  split at h
  · cases h
  next col' hcol' =>
  have heq : col' = col := by
    split at h
    · cases h
    split at h
    · cases h
    split at h
    · cases h
    split at h
    · cases h
    · exact Option.some.inj h
  subst heq
  obtain ⟨hlt, hname, -⟩ := findIdx?_eq_some_iff_getElem.mp hcol'
  have hname : (t.schema.columns[col']).name = column := by simpa using hname
  exact ⟨t.schema.columns[col'], getElem?_eq_getElem hlt, hname ▸ hcol'⟩

/-- Every index is on a column that its name leads to. -/
def NamedCols (t : Table) : Prop := ∀ col ∈ t.sec.map SecIndex.col, FirstNamed t.schema col

theorem with_tree_cols (f : Nat → BTNode → BTNode) (sec : List SecIndex) :
    (sec.map (.with_tree f)).map SecIndex.col = sec.map SecIndex.col := by
  rw [map_map]
  rfl

theorem NamedCols.move {d : TxnState} {st : Statement} {t t' : Table} (h : NamedCols t)
    (hm : TableMove d st t t') : NamedCols t' := by
  have hschema := hm.schema
  unfold NamedCols at h ⊢
  rw [hschema]
  cases hm with
  | same => exact h
  | analyze => exact h
  | create_index name table column _ col hname hcol =>
    intro c hc
    rw [map_append, mem_append] at hc
    rcases hc with hc | hc
    · exact h c hc
    · rw [mem_singleton.mp hc]
      exact index_column_named hcol
  | insert table vals =>
    rw [insert_row_cols, begin_write_sec]
    exact h
  | delete table w _ rids =>
    have hcols := List.foldlRecOn (motive := fun u : Table => u.sec = t.sec) rids
      (delete_row d.cur_txn) (begin_write_sec t d.cur_txn) fun u hu rid _ => hu
    rw [hcols]
    exact h
  | update table set_col set_val w _ sci rids =>
    have hcols := List.foldlRecOn
      (motive := fun u : Table => u.sec.map SecIndex.col = t.sec.map SecIndex.col) rids
      (update_row d.cur_txn sci set_val) (congrArg _ (begin_write_sec t d.cur_txn))
      fun u hu rid _ => (update_row_cols ..).trans hu
    rw [hcols]
    exact h
  | vacuum =>
    unfold vacuum_table vacuum_rows
    dsimp only
    rw [unindex_rows_sec, with_tree_cols, begin_write_sec]
    exact h

theorem NamedCols.finish (h : NamedCols t) (txn : Nat) (ok : Bool) :
    NamedCols (t.finish txn ok) := by
  unfold NamedCols at h ⊢
  rw [finish_schema]
  unfold Table.finish Table.commit Table.abort
  split <;> split
  · exact h
  · exact h
  · exact h
  · intro c hc
    refine h c ?_
    dsimp only at hc
    generalize t.undo.trees = trees at hc
    generalize t.sec = sec at hc
    induction sec generalizing trees with
    | nil => simp at hc
    | cons si sec ih =>
      cases trees with
      | nil => simp at hc
      | cons tree trees =>
        rcases mem_cons.mp hc with hc | hc
        · exact mem_cons.mpr (.inl hc)
        · exact mem_cons_of_mem _ (ih trees hc)

theorem named_cols_in_run {ok : Database → Statement → Prop} {db₀ db : Database}
    {sts : List Statement} (hopen : ∀ t ∈ db₀.tables, NamedCols t)
    (hrun : Steps db_step ok db₀ sts db) : ∀ t ∈ db.tables, NamedCols t := by
  refine hrun.invariant (fun db => ∀ t ∈ db.tables, NamedCols t) (fun db st db' h _ hs => ?_) hopen
  cases hs
  obtain ⟨st₁, -, hstep⟩ := db_exec_step db st
  refine hstep.keeps h (fun _ _ t ht _ hm => (h t ht).move hm)
    (fun _ txn ok _ h => h.finish txn ok) fun c txn => ?_
  unfold NamedCols
  rw [begin_write_sec]
  intro col hcol
  cases hcol

/-! ### Agreement with the scan -/

/-- The state in which a statement of session `i` reads. -/
def session_view (d : TxnState) (i : Nat) : TxnState :=
  { d with cur_session := i, cur_txn := (d.sessions i).own }

theorem session_view_visible (d : TxnState) (i : Nat) (rec : Version) :
    rec_visible (session_view d i) rec = session_sees d (d.sessions i) rec :=
  rec_visible_eq (session_view d i) rec

theorem filterMap_perm_of_subset {α β : Type} [DecidableEq α] {l l' : List α} {f : α → Option β}
    (hl : l.Nodup) (hl' : l'.Nodup) (hsub : ∀ a ∈ l, a ∈ l')
    (hnone : ∀ a ∈ l', a ∉ l → f a = none) : (l.filterMap f).Perm (l'.filterMap f) := by
  have hsplit : l'.Perm (l ++ l'.filter (· ∉ l)) := by
    refine (perm_ext_iff_of_nodup hl' ?_).mpr fun a => ?_
    · refine nodup_append.mpr ⟨hl, hl'.filter _, fun a ha b hb => ?_⟩
      rintro rfl
      have hnot := (mem_filter.mp hb).2
      simp [ha] at hnot
    · rw [mem_append, mem_filter]
      by_cases ha : a ∈ l
      · simp [ha, hsub a ha]
      · simp [ha]
  have hrest : (l'.filter (· ∉ l)).filterMap f = [] := by
    refine filterMap_eq_nil_iff.mpr fun a ha => ?_
    obtain ⟨ha, hnot⟩ := mem_filter.mp ha
    exact hnone a ha (by simpa using hnot)
  have hperm := hsplit.filterMap f
  rw [filterMap_append, hrest, append_nil] at hperm
  exact hperm.symm

theorem sec_index_for_spec {tname : String} {c : Condition} {si : SecIndex} {v : Int}
    (hnamed : NamedCols t) (h : sec_index_for t tname c = some (si, v)) :
    si ∈ t.sec ∧ ∀ row, where_matches t.schema tname [[c]] row =
      match row_at row si.col with
      | .int k => decide (k = v)
      | _ => false := by
  unfold sec_index_for at h
  split at h
  swap
  · cases h
  next v' hop hval =>
  split at h
  · cases h
  next hin =>
  obtain ⟨si', hfind, heq⟩ := Option.map_eq_some_iff.mp h
  cases heq
  have hmem := mem_of_find?_eq_some hfind
  have hnames := find?_some hfind
  simp only [names_column, Bool.and_eq_true, Bool.or_eq_true, decide_eq_true_eq] at hnames
  obtain ⟨htbl, hname⟩ := hnames
  obtain ⟨cd, hcd, hcol⟩ := hnamed si.col (mem_map_of_mem hmem)
  rw [hcd] at hname
  have hcn : cd.name = c.col := Option.some.inj hname
  refine ⟨hmem, fun row => ?_⟩
  rw [column_where (by rw [hop]; rfl) hval (Bool.eq_false_iff.mpr hin) htbl (hcn ▸ hcol) row]
  cases row_at row si.col with
  | int k =>
    show key_matches c.op v k = decide (k = v)
    rw [key_matches_apply, hop]
  | null => rfl
  | text s => rfl

section Agreement

variable {db : Database} {t : Table} {si : SecIndex} {rec : Version}

theorem mem_col_entries {h : Heap} (hok : HeapOk h) {col : Nat} {k : Int} {r : Rid}
    (hget : heap_get h r = some rec) (he : (k, rid_encode r) ∈ col_entries h col) :
    row_at rec.row col = .int k := by
  rw [col_entries_eq] at he
  obtain ⟨x, hx, hxe⟩ := mem_filterMap.mp he
  obtain ⟨hk, henc⟩ := index_entry_eq_some.mp hxe
  have hxget := mem_heap_scan.mp hx
  have hrx : x.1 = r := by
    rw [← rid_decode_encode (hok.pages.slot_lt hxget), show rid_encode x.1 = rid_encode r from henc,
      rid_decode_encode (hok.pages.slot_lt hget)]
  rw [hrx, hget] at hxget
  cases hxget
  exact hk

/-- Where literals fit, a version that somebody may see has its own entry. -/
theorem SecInv.entry (h : SecInv True db) (ht : t ∈ db.tables) (hsi : si ∈ t.sec) {r : Rid}
    {k : Int} (hget : heap_get t.heap r = some rec)
    (hk : row_at rec.row si.col = .int k) :
    (k, rid_encode r) ∈ si.tree.entries ∨ Gone db.toTxnState t r rec.xmin := by
  have hi := (h.sec t ht).cur si hsi
  rcases hi.complete r rec k hget hk with hg | ⟨k', -, hmem⟩
  · exact .inr hg
  · have hk' := mem_col_entries (h.heaps t ht).heap hget (hi.sound trivial _ hmem)
    rw [hk] at hk'
    cases hk'
    exact .inl hmem

theorem SecInv.path (h : SecInv True db) (hnamed : NamedCols t) (ht : t ∈ db.tables) {i : Nat}
    (hi : i < DB_MAX_SESSIONS) {tname : String} {c : Condition} {v : Int}
    (hc : sec_index_for t tname c = some (si, v)) :
    (path_read (session_view db.toTxnState i) t tname [[c]] (.sec si.tree v)).found.Perm
      (scan_rows (session_view db.toTxnState i) t tname [[c]]).found := by
  obtain ⟨hsi, hwhere⟩ := sec_index_for_spec hnamed hc
  have hix := (h.sec t ht).cur si hsi
  have hheap := (h.heaps t ht).heap
  generalize hd : session_view db.toTxnState i = d
  rw [scan_rows_entries hheap d hwhere]
  -- the recheck finds nothing to drop
  have hread : (path_read d t tname [[c]] (.sec si.tree v)).found =
      ((si.tree.entries.filter (·.1 = v)).map Prod.snd).filterMap (fetch_row d t.heap) := by
    show (fetch_read d t (btree_find_all si.tree v)).found.filter _ = _
    rw [fetch_read_found, hix.valid.find_all]
    refine filter_eq_self.mpr fun row hrow => ?_
    obtain ⟨val, hval, hfetch⟩ := mem_filterMap.mp hrow
    obtain ⟨e, he, rfl⟩ := mem_map.mp hval
    obtain ⟨he, hev⟩ := mem_filter.mp he
    have hentry := hix.sound trivial e he
    have hentry' := hentry
    rw [col_entries_eq] at hentry'
    obtain ⟨x, hx, hxe⟩ := mem_filterMap.mp hentry'
    obtain ⟨hk, henc⟩ := index_entry_eq_some.mp hxe
    have hxget := mem_heap_scan.mp hx
    unfold fetch_row at hfetch
    rw [← henc, rid_decode_encode (hheap.pages.slot_lt hxget), hxget, Option.bind_some] at hfetch
    obtain ⟨-, hrow⟩ := Option.ite_none_right_eq_some.mp hfetch
    rw [hwhere, ← Option.some.inj hrow, hk]
    exact hev
  rw [hread, filterMap_map, filterMap_map]
  refine filterMap_perm_of_subset ((hix.nodup trivial).filter _)
    ((List.Nodup.of_map _ (hheap.entries_nodup si.col)).filter _) (fun e he => ?_) fun e he hnot => ?_
  · obtain ⟨he, hev⟩ := mem_filter.mp he
    exact mem_filter.mpr ⟨hix.sound trivial e he, hev⟩
  · -- an entry that is missing belongs to a version nobody sees
    obtain ⟨he, hev⟩ := mem_filter.mp he
    rw [col_entries_eq] at he
    obtain ⟨x, hx, hxe⟩ := mem_filterMap.mp he
    obtain ⟨hk, henc⟩ := index_entry_eq_some.mp hxe
    have hxget := mem_heap_scan.mp hx
    have hfetch : fetch_row d t.heap e.2 = if rec_visible d x.2 then some x.2.row else none := by
      unfold fetch_row
      rw [← henc, rid_decode_encode (hheap.pages.slot_lt hxget), hxget]
      rfl
    rcases h.entry ht hsi hxget hk with hmem | hg
    · have heq : (e.1, rid_encode x.1) = e := Prod.ext rfl henc
      rw [heq] at hmem
      exact (hnot (mem_filter.mpr ⟨hmem, hev⟩)).elim
    · show fetch_row d t.heap e.2 = none
      rw [hfetch, ← hd, session_view_visible, (hg.heap x.2 hxget rfl).2.2 i hi]
      rfl

end Agreement

/-- A table as an earlier run has left it. -/
structure Stored (fits : Prop) (d : TxnState) (t : Table) : Prop where
  stamped : TableStamped (Finished d) t
  heaps : HeapsOk t
  sec : SecOk fits (Gone d t) t
  named : NamedCols t

theorem Opened.sec_inv {fits : Prop} {db : Database} (h : Opened db)
    (hstored : ∀ t ∈ db.tables, Stored fits db.toTxnState t) : SecInv fits db :=
  ⟨h.db_inv fun t ht => (hstored t ht).stamped, fun t ht => (hstored t ht).heaps,
    fun t ht => (hstored t ht).sec⟩

/-- Along runs in which CREATE INDEX finds no row that is hidden from its
    session and seen by another: an integer version in the heap has an entry,
    under the literal it was written with, or nobody will ever see it.  If
    moreover the literals fit their columns, the entry is under the value in
    the heap, and every session finds through an index what a scan finds. -/
theorem sec_index_complete {db₀ db : Database} {sts : List Statement} (hopen : Opened db₀)
    (hstored : ∀ t ∈ db₀.tables, Stored False db₀.toTxnState t)
    (hrun : Steps db_step index_covers db₀ sts db) :
    (∀ j t, db.tables[j]? = some t → ∀ si ∈ t.sec, ∀ r rec k, heap_get t.heap r = some rec →
      row_at rec.row si.col = .int k →
      (∃ k', int32_cast k' = k ∧ (k', rid_encode r) ∈ si.tree.entries) ∨ NeverSeen db j r rec.xmin) ∧
    ((∀ t ∈ db₀.tables, Stored True db₀.toTxnState t) → Steps db_step indexed_fit db₀ sts db →
      (∀ j t, db.tables[j]? = some t → ∀ si ∈ t.sec, ∀ r rec k, heap_get t.heap r = some rec →
        row_at rec.row si.col = .int k →
        (k, rid_encode r) ∈ si.tree.entries ∨ NeverSeen db j r rec.xmin) ∧
      ∀ t ∈ db.tables, ∀ i < DB_MAX_SESSIONS, ∀ tname c si v,
        sec_index_for t tname c = some (si, v) →
        (path_read (session_view db.toTxnState i) t tname [[c]] (.sec si.tree v)).found.Perm
          (scan_rows (session_view db.toTxnState i) t tname [[c]]).found) := by
  constructor
  · have h := sec_inv_in_run (hopen.sec_inv hstored) (hrun.mono fun db st hc => ⟨hc, False.elim⟩)
    intro j t ht si hsi r rec k hget hk
    have hmem := mem_of_getElem? ht
    rcases ((h.sec t hmem).cur si hsi).complete r rec k hget hk with hg | hentry
    · exact .inr (hg.never_seen h.inv ht)
    · exact .inl hentry
  · intro hstored hfit
    have h := sec_inv_in_run (hopen.sec_inv hstored)
      ((hrun.and hfit).mono fun db st hc => ⟨hc.1, fun _ => hc.2⟩)
    constructor
    · intro j t ht si hsi r rec k hget hk
      exact (h.entry (mem_of_getElem? ht) hsi hget hk).imp_right fun hg =>
        hg.never_seen h.inv ht
    · intro t ht i hi tname c si v hc
      exact h.path (named_cols_in_run (fun t ht => (hstored t ht).named) hrun t ht) ht hi hc

/-- `CREATE TABLE t (a INT, b INT)` -/
def two_columns : Statement := .create ⟨"t", [int_column "a", int_column "b"], 0⟩

/-- The row is there before the index. -/
def indexed_rows : List Statement :=
  [two_columns, .insert "t" [.int 1, .int 7], .create_index "ix" "t" "b", .insert "t" [.int 2, .int 7]]

theorem sec_index_complete_two_rows :
    ∃ x, first_table (fun db st => index_covers db st ∧ indexed_fit db st) indexed_rows = some x ∧
      ∃ si, sec_index_for x.2 "t" (compare_int "b" .CMP_EQ 7) = some (si, 7) ∧
        (path_read (session_view x.1.toTxnState 0) x.2 "t" [[compare_int "b" .CMP_EQ 7]]
          (.sec si.tree 7)).found.Perm
        (scan_rows (session_view x.1.toTxnState 0) x.2 "t" [[compare_int "b" .CMP_EQ 7]]).found := by
  have hsome : (first_table (fun db st => index_covers db st ∧ indexed_fit db st) indexed_rows).map
      (fun x => (sec_index_for x.2 "t" (compare_int "b" .CMP_EQ 7)).map Prod.snd) = some (some 7) := by
    decide +kernel
  obtain ⟨x, hx, hv⟩ := Option.map_eq_some_iff.mp hsome
  obtain ⟨⟨si, v⟩, hc, rfl⟩ := Option.map_eq_some_iff.mp hv
  obtain ⟨hrun, ht⟩ := first_table_steps hx
  have hcover := hrun.mono fun db st hok => hok.1
  have hfit := hrun.mono fun db st hok => hok.2
  exact ⟨x, hx, si, hc, ((sec_index_complete db_new_opened (forall_mem_nil _) hcover).2 (forall_mem_nil _) hfit).2 x.2 ht 0 (by decide) "t"
    (compare_int "b" .CMP_EQ 7) si 7 hc⟩

/-- Session 1 has its snapshot, session 0 commits a row, session 1 creates the
    index. -/
def index_behind_snapshot : List Statement :=
  [two_columns, .session 1, .begin, .session 0, .insert "t" [.int 1, .int 7], .session 1,
    .create_index "ix" "t" "b", .session 0]

/-- Session 0 sees the row; the index has no entry for it. -/
theorem sec_index_misses_row :
    (first_table (fun _ _ => True) index_behind_snapshot).map (fun x =>
      let w : Where := [[compare_int "b" .CMP_EQ 7]]
      ((x.2.sec.map fun si => si.tree.entries,
        (path_read (session_view x.1.toTxnState 0) x.2 "t" w (access_path x.2 "t" w)).found),
        (scan_rows (session_view x.1.toTxnState 0) x.2 "t" w).found)) =
      some (([[]], []), [[.int 1, .int 7]]) := by
  decide +kernel

end MiniDb
