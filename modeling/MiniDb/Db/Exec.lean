import MiniDb.Db.Join

/-! # Statements

  `db_exec` on a parsed statement.  A write outside a transaction, and every
  CREATE TABLE, is a transaction of its own; locks are held to the end of the
  transaction.  SESSION changes the current session and nothing else, and
  subqueries run before the statement's own id is set. -/

namespace MiniDb

/-- Change the table of that name. -/
def set_table (name : String) (f : Table → Table) : List Table → List Table
  | [] => []
  | t :: ts => if t.schema.table = name then f t :: ts else t :: set_table name f ts

def Database.update (db : Database) (name : String) (f : Table → Table) : Database :=
  { db with tables := set_table name f db.tables }

def catalog_write (db : Database) : Database :=
  { db with catalog := some ⟨db.next_txn, db.tables.map fun t =>
      ⟨t.schema, t.sec.map fun si => (si.name, si.col), t.stats⟩⟩ }

def Output.done : Output := ⟨true, .none, []⟩

/-! ### CREATE -/

/-- A table with empty files. -/
def table_new (c : CreateStmt) : Table :=
  ⟨c, [], btree_empty, [], [], none, 0, ⟨[], btree_empty, []⟩⟩

def exec_create (db : Database) (c : CreateStmt) : Database × Output :=
  if (find_table db c.table).isSome || decide (DB_MAX_TABLES ≤ db.tables.length) then
    (db, .error [])
  else
    (catalog_write { db with tables := db.tables ++ [(table_new c).begin_write db.cur_txn] }, .done)

/-- The visible rows with an integer in the column. -/
def secidx_build (d : TxnState) (t : Table) (col : Nat) : BTNode × List Test :=
  let r := scan_read d t.heap fun x =>
    match row_at x.2.row col with
    | .int v => some (v, rid_encode x.1)
    | _ => none
  (r.found.foldl (fun tree e => btree_insert_dup tree e.1 e.2) btree_empty, r.tests)

/-- The column of an index that may be created. -/
def index_column (t : Table) (name column : String) : Option Nat :=
  if t.writer_txn ≠ 0 then none
  else
    match column_of t.schema column with
    | none => none
    | some col =>
      if (t.schema.columns[col]?.map ColumnDef.type) ≠ some .COL_INT then none
      else if col = 0 && t.has_index then none
      else if DB_MAX_SEC_IDX ≤ t.sec.length then none
      else if t.sec.any (·.name == name) then none
      else some col

def exec_create_index (db : Database) (name table column : String) : Database × Output :=
  match find_table db table with
  | none => (db, .error [])
  | some t =>
    match index_column t name column with
    | none => (db, .error [])
    | some col =>
      let built := secidx_build db.toTxnState t col
      (catalog_write (db.update table fun t => { t with sec := t.sec ++ [⟨name, col, built.1⟩] }),
        ⟨true, .none, built.2⟩)

/-! ### INSERT, DELETE, UPDATE -/

/-- A NULL where the schema has none: a NOT NULL column or the primary key. -/
def null_violation (t : Table) (vals : List Value) : Bool :=
  (vals.zip t.schema.columns).zipIdx.any fun x =>
    ((x.2 = 0 && t.has_index) || x.1.2.not_null) && x.1.1 = .null

def exec_insert (db : Database) (table : String) (vals : List Value) : Database × Output :=
  match find_table db table with
  | none => (db, .error [])
  | some t =>
    if null_violation t vals then (db, .error [])
    else
      let r := insert_row (t.begin_write db.cur_txn) db.cur_txn vals
      (db.update table fun _ => r.1, ⟨r.2, .none, []⟩)

/-- The addresses a DELETE or UPDATE collects before it changes anything. -/
def collect_rids (d : TxnState) (t : Table) (w : Where) : Read Rid :=
  let r := scan_read d t.heap fun x =>
    if where_matches t.schema t.schema.table w x.2.row then some x.1 else none
  ⟨r.found.take DML_MAX_ROWS, r.tests⟩

def exec_delete (db : Database) (table : String) (w : Where) : Database × Output :=
  match find_table db table with
  | none => (db, .error [])
  | some t =>
    let r := collect_rids db.toTxnState t w
    (db.update table fun t => r.found.foldl (delete_row db.cur_txn) (t.begin_write db.cur_txn),
      ⟨true, .none, r.tests⟩)

/-- The column that SET changes, if the value fits its type. -/
def set_column (t : Table) (set_col : String) (set_val : Value) : Option Nat :=
  match last_column t.schema set_col with
  | none => none
  | some sci =>
    match t.schema.columns[sci]?.map ColumnDef.type, set_val with
    | some .COL_INT, .int _ => some sci
    | some .COL_TEXT, .text _ => some sci
    | _, _ => none

def exec_update (db : Database) (table set_col : String) (set_val : Value) (w : Where) :
    Database × Output :=
  match find_table db table with
  | none => (db, .error [])
  | some t =>
    match set_column t set_col set_val with
    | none => (db, .error [])
    | some sci =>
      let r := collect_rids db.toTxnState t w
      (db.update table fun t =>
          r.found.foldl (update_row db.cur_txn sci set_val) (t.begin_write db.cur_txn),
        ⟨true, .none, r.tests⟩)

/-! ### VACUUM, ANALYZE -/

def rec_dead (d : TxnState) (rec : Version) : Bool := rec.xmax ≠ 0 && txn_committed_view d rec.xmax

def vacuum_table (d : TxnState) (t : Table) : Table :=
  vacuum_rows (t.begin_write d.cur_txn) ((heap_scan t.heap).filter fun x => rec_dead d x.2)

/-- Refused while any session is in a transaction. -/
def exec_vacuum (db : Database) (table : String) : Database × Output :=
  if (List.range DB_MAX_SESSIONS).any fun i => (db.sessions i).in_txn then (db, .error [])
  else if table = "" then
    ({ db with tables := db.tables.map (vacuum_table db.toTxnState) }, .done)
  else
    match find_table db table with
    | none => (db, .error [])
    | some _ => (db.update table (vacuum_table db.toTxnState), .done)

def analyze_table (d : TxnState) (t : Table) : Stats × List Test :=
  let r := scan_read d t.heap fun x => some x.2.row
  let keys := r.found.filterMap fun row =>
    match t.has_index, row.head? with
    | true, some (.int v) => some v
    | _, _ => none
  (⟨r.found.length, max 1 t.heap.length, keys.min?.getD 0, keys.max?.getD 0⟩, r.tests)

def exec_analyze (db : Database) (table : String) : Database × Output :=
  let d := db.toTxnState
  if table = "" then
    (catalog_write { db with tables := db.tables.map fun t =>
        { t with stats := some (analyze_table d t).1 } },
      ⟨true, .none, db.tables.flatMap fun t => (analyze_table d t).2⟩)
  else
    match find_table db table with
    | none => (db, .error [])
    | some t =>
      (catalog_write (db.update table fun t => { t with stats := some (analyze_table d t).1 }),
        ⟨true, .none, (analyze_table d t).2⟩)

/-! ### Transactions -/

/-- Change the transactions and nothing else. -/
def Database.on (db : Database) (f : TxnState → TxnState) : Database :=
  { db with toTxnState := f db.toTxnState }

def TxnState.set_cur (d : TxnState) (txn : Nat) : TxnState := { d with cur_txn := txn }

def TxnState.set_lm (d : TxnState) (lm : LockManager) : TxnState := { d with lm := lm }

/-- The next id is handed out. -/
def TxnState.take_id (d : TxnState) : TxnState :=
  { d with
    next_txn := d.next_txn + 1
    txnlog := txnlog_begin d.txnlog d.next_txn
    cur_txn := d.next_txn }

/-- The outcome of a transaction is recorded and its locks go. -/
def TxnState.record (d : TxnState) (txn : Nat) (ok : Bool) : TxnState :=
  { d with
    txnlog := if ok then txnlog_commit d.txnlog txn else txnlog_abort d.txnlog txn
    lm := lock_release_all d.lm txn }

def TxnState.set_session (d : TxnState) (s : DbSession) : TxnState :=
  { d with sessions := Function.update d.sessions d.cur_session s }

/-- The other sessions' open transactions. -/
def TxnState.inprog (d : TxnState) : List Nat :=
  ((List.range DB_MAX_SESSIONS).filter fun i => i ≠ d.cur_session && (d.sessions i).in_txn).map
    fun i => (d.sessions i).txn

def txn_commit_all (db : Database) (txn : Nat) : Database :=
  { db with tables := db.tables.map (·.commit txn) }

def txn_abort_all (db : Database) (txn : Nat) : Database :=
  { db with tables := db.tables.map (·.abort txn) }

def exec_begin (db : Database) : Database × Output :=
  if db.session.in_txn then (db, .error [])
  else
    (db.on fun d => d.take_id.set_session ⟨true, d.next_txn, d.next_txn + 1, d.inprog⟩, .done)

/-- The end of a transaction: its writes are kept or taken back. -/
def end_txn (db : Database) (txn : Nat) (ok : Bool) : Database :=
  (if ok then txn_commit_all db txn else txn_abort_all db txn).on (·.record txn ok)

def exec_end (db : Database) (ok : Bool) : Database × Output :=
  if !db.session.in_txn then (db, .error [])
  else
    ((end_txn db db.session.txn ok).on fun d =>
      (d.set_session { d.session with in_txn := false }).set_cur 0, .done)

def exec_commit (db : Database) : Database × Output := exec_end db true
def exec_rollback (db : Database) : Database × Output := exec_end db false

def exec_session (db : Database) (n : Int) : Database × Output :=
  if n < 0 ∨ (DB_MAX_SESSIONS : Int) ≤ n then (db, .error [])
  else (db.on fun d => { d with cur_session := n.toNat }, .done)

/-! ### The dispatcher -/

def Statement.is_create : Statement → Bool
  | .create _ => true
  | _ => false

def Statement.is_write : Statement → Bool
  | .insert .. | .delete .. | .update .. | .vacuum _ | .create _ => true
  | _ => false

/-- The table that a statement locks. -/
def Statement.locked : Statement → Option String
  | .insert table _ => some table
  | .delete table _ => some table
  | .update table _ _ _ => some table
  | _ => none

def exec_stmt (db : Database) : Statement → Database × Output
  | .create c => exec_create db c
  | .create_index name table column => exec_create_index db name table column
  | .insert table vals => exec_insert db table vals
  | .select sel => (db, exec_select db sel)
  | .delete table w => exec_delete db table w
  | .update table set_col set_val w => exec_update db table set_col set_val w
  | .begin => exec_begin db
  | .commit => exec_commit db
  | .rollback => exec_rollback db
  | .vacuum table => exec_vacuum db table
  | .session n => exec_session db n
  | .analyze table => exec_analyze db table

/-- The subqueries of a statement are run first. -/
def prepare_stmt (db : Database) : Statement → Tested Statement
  | .select sel => do
    let w ← prepare_where db sel.filter
    pure (.select { sel with filter := w })
  | .delete table w => do
    let w ← prepare_where db w
    pure (.delete table w)
  | .update table set_col set_val w => do
    let w ← prepare_where db w
    pure (.update table set_col set_val w)
  | st => pure st

/-- The lexer has cut the name to the length that the lock table keeps. -/
def acquire_stmt_locks (lm : LockManager) (st : Statement) (txn : Nat) : Option LockManager :=
  match st.locked with
  | none => some lm
  | some table =>
    let r := lock_acquire lm txn (lock_name table) 0 .LOCK_X
    if r.2 then some r.1 else none

/-- A write that is a transaction of its own. -/
def exec_autocommit (db : Database) (st : Statement) : Database × Output :=
  let txn := db.next_txn
  let own := db.own_txn
  let db := db.on TxnState.take_id
  match acquire_stmt_locks db.lm st txn with
  | none => (db.on fun d => (d.record txn false).set_cur own, .error [])
  | some lm =>
    let r := exec_stmt (db.on (·.set_lm lm)) st
    ((end_txn r.1 txn r.2.ok).on (·.set_cur own), r.2)

/-- A write inside the session's transaction. -/
def exec_in_txn (db : Database) (st : Statement) : Database × Output :=
  let txn := db.session.txn
  match acquire_stmt_locks db.lm st txn with
  | none => (db.on (·.set_cur txn), .error [])
  | some lm => exec_stmt (db.on fun d => (d.set_lm lm).set_cur txn) st

def exec_prepared (db : Database) (st : Statement) : Database × Output :=
  if st.is_write then
    if !db.session.in_txn || st.is_create then exec_autocommit db st else exec_in_txn db st
  else exec_stmt (db.on fun d => d.set_cur d.own_txn) st

def db_exec (db : Database) (st : Statement) : Database × Output :=
  let p := prepare_stmt db st
  match p.result with
  | none => (db, .error p.tests)
  | some st =>
    let r := exec_prepared db st
    (r.1, { r.2 with tests := p.tests ++ r.2.tests })

/-! ### Statements written out -/

/-- `SELECT * FROM table WHERE w` -/
def select_all (table : String) (w : Where) : SelectStmt :=
  ⟨false, table, "", [], false, true, [], false, "", "", none, .CMP_EQ, .null, w, [], -1, 0⟩

/-- `SELECT col FROM table WHERE w` -/
def select_col (table col : String) (w : Where) : SelectStmt :=
  ⟨false, table, "", [], false, false, [⟨.AGG_NONE, false, "", col⟩], false, "", "", none, .CMP_EQ, .null,
    w, [], -1, 0⟩

/-- `col IN (SELECT ...)` -/
def in_select (col : String) (sub : SelectStmt) : Condition :=
  ⟨"", col, .CMP_EQ, .null, true, false, false, some sub, none⟩

/-- `col op v` -/
def compare_int (col : String) (op : CmpOp) (v : Int) : Condition :=
  ⟨"", col, op, .int v, false, false, false, none, none⟩

/-- `name INT` -/
def int_column (name : String) : ColumnDef := ⟨name, .COL_INT, false⟩

/-- A new database. -/
def db_new : Database where
  sessions _ := ⟨false, 0, 0, []⟩
  cur_session := 0
  lm := []
  cur_txn := 0
  next_txn := 1
  committed_below := 1
  txnlog := txnlog_init
  tables := []
  catalog := none

end MiniDb
