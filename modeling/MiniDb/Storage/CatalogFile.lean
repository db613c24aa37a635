import Mathlib.Data.List.Nodup
import MiniDb.Framework.Bytes

/-! # The catalog file (db.c: catalog_write, db_open)

  The catalog is one file: the number of tables, the next transaction id, and
  for every table its schema, its secondary indexes and its statistics.  It is
  rewritten in place.  `fopen` empties the file and what was written when the
  process is killed is some prefix of the new bytes; `db_open` reads such a
  prefix as far as it goes.

  Structures are written as their memory images, so a schema, an index name or
  a statistic is a string of bytes of fixed length here.  `needed` is the
  number of bytes that have to be written before a kill is harmless. -/

namespace MiniDb.CatalogFile

open Framework List

def SQL_NAME_LEN : Nat := 64
def DB_MAX_TABLES : Nat := 16
def DB_MAX_SEC_IDX : Nat := 4

/-- `sizeof(CreateStmt)`: the name, 32 columns of a name and two words, the
    number of columns and the kind of index. -/
def SCHEMA_BYTES : Nat := SQL_NAME_LEN + 32 * (SQL_NAME_LEN + 4 + 4) + 4 + 4

/-- The memory image of `n` bytes. -/
abbrev Image (n : Nat) : Type := { bs : List UInt8 // bs.length = n }

/-! ### State -/

structure SecDef where
  name : Image SQL_NAME_LEN
  col : Image 4
  deriving DecidableEq

structure FileStats where
  stat_valid : Image 4
  stat_rows : Image 8
  stat_pages : Image 8
  stat_pk_min : Image 8
  stat_pk_max : Image 8
  deriving DecidableEq

structure TableDef where
  schema : Image SCHEMA_BYTES
  sec : List SecDef
  stats : FileStats
  deriving DecidableEq

/-- The C string at the front of an image. -/
def c_string {n : Nat} (b : Image n) : List UInt8 := (b.1.take SQL_NAME_LEN).takeWhile (· ≠ 0)

/-- The part of a database the catalog records.  `exec_create` and
    `exec_create_index` refuse what would break the bounds or repeat a name. -/
structure Db where
  tables : List TableDef
  next_txn : Nat
  few : tables.length ≤ DB_MAX_TABLES
  few_sec : ∀ t ∈ tables, t.sec.length ≤ DB_MAX_SEC_IDX
  names : (tables.map fun t => c_string t.schema).Nodup
  sec_names : ∀ t ∈ tables, (t.sec.map fun s => c_string s.name).Nodup
  txn : 1 ≤ next_txn ∧ next_txn < 2 ^ 31

/-! ### Writing -/

def sec_bytes (s : SecDef) : List UInt8 := s.name.1 ++ s.col.1

def stats_bytes (s : FileStats) : List UInt8 :=
  s.stat_valid.1 ++ (s.stat_rows.1 ++ (s.stat_pages.1 ++ (s.stat_pk_min.1 ++ s.stat_pk_max.1)))

def table_bytes (t : TableDef) : List UInt8 :=
  t.schema.1 ++ (le_bytes 4 t.sec.length ++ (t.sec.flatMap sec_bytes ++ stats_bytes t.stats))

/-- Everything `catalog_write` writes. -/
def catalog_write (db : Db) : List UInt8 :=
  le_bytes 4 db.tables.length ++ (le_bytes 4 db.next_txn ++ db.tables.flatMap table_bytes)

/-! ### Reading -/

/-- `fread` of one item: a short read consumes what is left. -/
def fread (n : Nat) (bs : List UInt8) : Option (Image n) × List UInt8 :=
  if h : n ≤ bs.length then (some ⟨bs.take n, by simp [h]⟩, bs.drop n) else (none, [])

def int32 (b : Image 4) : Int :=
  if le_nat b.1 < 2 ^ 31 then le_nat b.1 else (le_nat b.1 : Int) - 2 ^ 32

def read_secs : Nat → List UInt8 → List SecDef × List UInt8
  | 0, bs => ([], bs)
  | k + 1, bs =>
    match fread SQL_NAME_LEN bs with
    | (none, bs) => ([], bs)
    | (some name, bs) =>
      match fread 4 bs with
      | (none, bs) => ([], bs)
      | (some col, bs) => (⟨name, col⟩ :: (read_secs k bs).1, (read_secs k bs).2)

/-- `none` when a part is missing: the statistics are then not valid. -/
def read_stats (bs : List UInt8) : Option FileStats × List UInt8 :=
  match fread 4 bs with
  | (none, bs) => (none, bs)
  | (some sv, bs) =>
    let (rows, bs) := fread 8 bs
    let (pages, bs) := fread 8 bs
    let (pk_min, bs) := fread 8 bs
    let (pk_max, bs) := fread 8 bs
    (rows.bind fun rows => pages.bind fun pages => pk_min.bind fun pk_min =>
      pk_max.map fun pk_max => ⟨sv, rows, pages, pk_min, pk_max⟩, bs)

/-- A table as `db_open` restores it. -/
structure Restored where
  schema : Image SCHEMA_BYTES
  sec : List SecDef
  stats : Option FileStats
  deriving DecidableEq

/-- The number of indexes and the indexes; no index when the number is missing
    or out of range. -/
def read_sec_list (bs : List UInt8) : List SecDef × List UInt8 :=
  match fread 4 bs with
  | (none, bs) => ([], bs)
  | (some ns, bs) =>
    if 0 ≤ int32 ns ∧ int32 ns ≤ DB_MAX_SEC_IDX then read_secs (int32 ns).toNat bs else ([], bs)

def read_table (bs : List UInt8) : Option (Restored × List UInt8) :=
  match fread SCHEMA_BYTES bs with
  | (none, _) => none
  | (some schema, bs) =>
    let (sec, bs) := read_sec_list bs
    let (stats, bs) := read_stats bs
    some (⟨schema, sec, stats⟩, bs)

/-- The loop stops at the first schema that is not there. -/
def read_tables : Nat → List UInt8 → List Restored
  | 0, _ => []
  | n + 1, bs =>
    match read_table bs with
    | none => []
    | some (t, bs) => t :: read_tables n bs

structure OpenDb where
  tables : List Restored
  next_txn : Int
  committed_below : Int
  deriving DecidableEq

def open_new : OpenDb := ⟨[], 1, 1⟩

/-- `db_open` on the catalog file, where there is one.  The table files can be
    opened. -/
def db_open (file : Option (List UInt8)) : OpenDb :=
  match file with
  | none => open_new
  | some bs =>
    match fread 4 bs with
    | (none, _) => open_new
    | (some n, bs) =>
      if 0 ≤ int32 n ∧ int32 n ≤ DB_MAX_TABLES then
        let (nt, bs) := fread 4 bs
        let next := (nt.filter fun nt => 1 < int32 nt).elim 1 int32
        ⟨read_tables (int32 n).toNat bs, next, next⟩
      else open_new

def find_table (d : OpenDb) (name : List UInt8) : Option Restored :=
  d.tables.find? fun t => c_string t.schema = name

/-- Whether `CREATE TABLE` of this name would unlink the files of a table of
    that name: it does so unless the catalog has the table. -/
def create_unlinks (d : OpenDb) (name : List UInt8) : Bool :=
  (find_table d name).isNone && d.tables.length < DB_MAX_TABLES

/-! ### Reading a prefix -/

/-- Reading what was written, of which only `m` bytes are there. -/
theorem fread_take {n : Nat} (b : Image n) (ys : List UInt8) (m : Nat) :
    fread n ((b.1 ++ ys).take m) = (if n ≤ m then some b else none, ys.take (m - n)) := by
  have hlen : b.1.length = n := b.2
  rw [take_append, hlen, fread]
  by_cases h : n ≤ m
  · have htake : b.1.take m = b.1 := take_of_length_le (by omega)
    have hfits : n ≤ (b.1 ++ ys.take (m - n)).length := by simp [hlen]
    simp only [htake, dif_pos hfits, if_pos h]
    refine Prod.ext (congrArg some (Subtype.ext ?_)) ?_
    · exact take_left' hlen
    · exact drop_left' hlen
  · have hshort : ¬ n ≤ (b.1.take m ++ ys.take (m - n)).length := by
      have : m - n = 0 := by omega
      simp [this]
      omega
    rw [dif_neg hshort, if_neg h, show m - n = 0 by omega, take_zero]

def word (n : Nat) : Image 4 := ⟨le_bytes 4 n, le_bytes_length 4 n⟩

theorem int32_word {n : Nat} (h : n < 2 ^ 31) : int32 (word n) = n := by
  have hn : le_nat (word n).1 = n := le_nat_le_bytes (by omega)
  rw [int32, hn, if_pos h]

/-- The bytes of one index. -/
def SEC_BYTES : Nat := SQL_NAME_LEN + 4

theorem SEC_BYTES_eq : SEC_BYTES = 68 := rfl

theorem SQL_NAME_LEN_eq : SQL_NAME_LEN = 64 := rfl

theorem read_secs_take (ss : List SecDef) (ys : List UInt8) (m : Nat) :
    read_secs ss.length ((ss.flatMap sec_bytes ++ ys).take m) =
      (ss.take (m / SEC_BYTES), ys.take (m - SEC_BYTES * ss.length)) := by
  induction ss generalizing m with
  | nil => simp [read_secs]
  | cons s ss ih =>
    have hbytes : (s :: ss).flatMap sec_bytes ++ ys =
        s.name.1 ++ (s.col.1 ++ (ss.flatMap sec_bytes ++ ys)) := by
      simp [sec_bytes]
    rw [hbytes, length_cons, read_secs, fread_take]
    rw [SEC_BYTES_eq] at ih ⊢
    -- the name is missing, the column is missing, or the index is there
    by_cases h₁ : SQL_NAME_LEN ≤ m
    · simp only [if_pos h₁, fread_take]
      rw [SQL_NAME_LEN_eq] at h₁ ⊢
      by_cases h₂ : 4 ≤ m - 64
      · have hdiv : m / 68 = (m - 64 - 4) / 68 + 1 := by omega
        have hrest : m - 64 - 4 - 68 * ss.length = m - 68 * (ss.length + 1) := by omega
        simp only [if_pos h₂, ih, hdiv, hrest, take_succ_cons]
      · have hdiv : m / 68 = 0 := by omega
        have hrest : m - 68 * (ss.length + 1) = 0 := by omega
        have hnone : m - 64 - 4 = 0 := by omega
        simp only [if_neg h₂, hdiv, hrest, hnone, take_zero]
    · simp only [if_neg h₁]
      rw [SQL_NAME_LEN_eq] at h₁ ⊢
      have hdiv : m / 68 = 0 := by omega
      have hrest : m - 68 * (ss.length + 1) = 0 := by omega
      have hnone : m - 64 = 0 := by omega
      simp only [hdiv, hrest, hnone, take_zero]

theorem read_sec_list_take {ss : List SecDef} (hss : ss.length ≤ DB_MAX_SEC_IDX)
    (ys : List UInt8) (m : Nat) :
    read_sec_list ((le_bytes 4 ss.length ++ (ss.flatMap sec_bytes ++ ys)).take m) =
      (ss.take ((m - 4) / SEC_BYTES), ys.take (m - (4 + SEC_BYTES * ss.length))) := by
  have hword : le_bytes 4 ss.length = (word ss.length).1 := rfl
  have hint : int32 (word ss.length) = ss.length :=
    int32_word (lt_of_le_of_lt hss (by decide))
  rw [read_sec_list, hword, fread_take]
  by_cases h : 4 ≤ m
  · simp only [if_pos h]
    rw [hint, if_pos ⟨by omega, by exact_mod_cast hss⟩, Int.toNat_natCast, read_secs_take,
      Nat.sub_sub]
  · have hm : m - 4 = 0 := by omega
    have hrest : m - (4 + SEC_BYTES * ss.length) = 0 := by omega
    simp only [if_neg h, hm, hrest, Nat.zero_div, take_zero]

def STATS_BYTES : Nat := 4 + 8 + 8 + 8 + 8

theorem STATS_BYTES_eq : STATS_BYTES = 36 := rfl

theorem read_stats_take (st : FileStats) (ys : List UInt8) (m : Nat) :
    read_stats ((stats_bytes st ++ ys).take m) =
      (if STATS_BYTES ≤ m then some st else none, ys.take (m - STATS_BYTES)) := by
  have hbytes : stats_bytes st ++ ys = st.stat_valid.1 ++ (st.stat_rows.1 ++ (st.stat_pages.1 ++
      (st.stat_pk_min.1 ++ (st.stat_pk_max.1 ++ ys)))) := by
    simp [stats_bytes]
  rw [hbytes, read_stats, STATS_BYTES_eq]
  by_cases h₁ : 4 ≤ m
  · simp only [fread_take, if_pos h₁, Nat.sub_sub]
    by_cases h₂ : 36 ≤ m
    · rw [if_pos h₂, if_pos (by omega), if_pos (by omega), if_pos (by omega), if_pos (by omega)]
      rfl
    · -- the last field is missing, whichever others are
      have hlast : ¬ 8 ≤ m - (4 + 8 + 8 + 8) := by omega
      simp only [if_neg h₂, if_neg hlast, Option.map_none, Option.bind_fun_none]
  · have hrest : m - 36 = 0 := by omega
    have hnone : m - 4 = 0 := by omega
    simp only [fread_take, if_neg h₁, if_neg (by omega : ¬ 36 ≤ m), hrest, hnone, take_zero]

/-- The bytes of one table. -/
def table_len (t : TableDef) : Nat := SCHEMA_BYTES + (4 + SEC_BYTES * t.sec.length) + STATS_BYTES

/-- A table of which only `m` bytes are there. -/
def cut_table (t : TableDef) (m : Nat) : Restored :=
  ⟨t.schema, t.sec.take ((m - SCHEMA_BYTES - 4) / SEC_BYTES),
    if table_len t ≤ m then some t.stats else none⟩

variable {t : TableDef} {new old : List TableDef} {ts : List TableDef} {t' : TableDef}

theorem read_table_take (ht : t.sec.length ≤ DB_MAX_SEC_IDX) (ys : List UInt8) (m : Nat) :
    read_table ((table_bytes t ++ ys).take m) =
      if SCHEMA_BYTES ≤ m then some (cut_table t m, ys.take (m - table_len t)) else none := by
  have hbytes : table_bytes t ++ ys = t.schema.1 ++ (le_bytes 4 t.sec.length ++
      (t.sec.flatMap sec_bytes ++ (stats_bytes t.stats ++ ys))) := by
    simp [table_bytes]
  rw [hbytes, read_table, fread_take]
  by_cases h : SCHEMA_BYTES ≤ m
  · have hle : STATS_BYTES ≤ m - SCHEMA_BYTES - (4 + SEC_BYTES * t.sec.length) ↔
        table_len t ≤ m := by
      rw [table_len, STATS_BYTES_eq]
      omega
    have hrest : m - SCHEMA_BYTES - (4 + SEC_BYTES * t.sec.length) - STATS_BYTES =
        m - table_len t := by
      rw [table_len]
      omega
    simp only [if_pos h, read_sec_list_take ht, read_stats_take, cut_table, hrest,
      if_congr hle rfl rfl]
  · simp only [if_neg h]

/-- The tables that `m` bytes of the records restore. -/
def cut_tables : List TableDef → Nat → List Restored
  | [], _ => []
  | t :: ts, m =>
    if SCHEMA_BYTES ≤ m then cut_table t m :: cut_tables ts (m - table_len t) else []

theorem read_tables_take (hts : ∀ t ∈ ts, t.sec.length ≤ DB_MAX_SEC_IDX)
    (m : Nat) : read_tables ts.length ((ts.flatMap table_bytes).take m) = cut_tables ts m := by
  induction ts generalizing m with
  | nil => rfl
  | cons t ts ih =>
    rw [length_cons, read_tables, flatMap_cons, read_table_take (hts t (by simp)),
      cut_tables]
    by_cases h : SCHEMA_BYTES ≤ m
    · simp only [if_pos h, ih fun t ht => hts t (by simp [ht])]
    · simp only [if_neg h]

/-- What `db_open` makes of the first `m` bytes of a catalog. -/
theorem db_open_take (db : Db) (m : Nat) :
    db_open (some ((catalog_write db).take m)) =
      ⟨cut_tables db.tables (m - 8), if 8 ≤ m then db.next_txn else 1,
        if 8 ≤ m then db.next_txn else 1⟩ := by
  have hn : int32 (word db.tables.length) = db.tables.length :=
    int32_word (lt_of_le_of_lt db.few (by decide))
  have hnt : int32 (word db.next_txn) = db.next_txn := int32_word db.txn.2
  have hcut : ∀ ts, cut_tables ts 0 = [] := by
    intro ts
    cases ts with
    | nil => rfl
    | cons t ts => exact if_neg (by decide)
  have hbytes : catalog_write db = (word db.tables.length).1 ++ ((word db.next_txn).1 ++
      db.tables.flatMap table_bytes) := rfl
  rw [db_open, hbytes, fread_take]
  by_cases h₁ : 4 ≤ m
  · simp only [if_pos h₁, fread_take]
    rw [hn, if_pos ⟨by omega, by exact_mod_cast db.few⟩]
    simp only [Int.toNat_natCast, Nat.sub_sub, read_tables_take db.few_sec]
    by_cases h₂ : 8 ≤ m
    · have hread : 4 ≤ m - 4 := by omega
      rw [if_pos hread, if_pos h₂]
      have hnext : (Option.filter (fun nt => decide (1 < int32 nt)) (some (word db.next_txn))).elim
          1 int32 = db.next_txn := by
        by_cases hone : db.next_txn = 1
        · rw [hone] at hnt ⊢
          simp [Option.filter, hnt]
        · have : 1 < (db.next_txn : Int) := by have := db.txn.1; omega
          simp [Option.filter, hnt, this]
      rw [hnext]
    · have hread : ¬ 4 ≤ m - 4 := by omega
      rw [if_neg hread, if_neg h₂]
      rfl
  · have hm : m - 8 = 0 := by omega
    simp only [if_neg h₁, if_neg (by omega : ¬ 8 ≤ m), hm, hcut]
    rfl

/-! ### Rewriting the catalog -/

/-- The statements that rewrite the catalog; `ANALYZE` of one table or of all. -/
inductive Rewrite where
  | create (schema : Image SCHEMA_BYTES) (stats : FileStats)
  | create_index (i : Nat) (s : SecDef)
  | analyze (stats : TableDef → FileStats)
  | close

def Rewrite.tables : Rewrite → List TableDef → List TableDef
  | .create schema stats, ts => ts ++ [⟨schema, [], stats⟩]
  | .create_index i s, ts => ts.modify i fun t => { t with sec := t.sec ++ [s] }
  | .analyze stats, ts => ts.map fun t => { t with stats := stats t }
  | .close, ts => ts

/-- `new` is written over `old`: ids are only ever handed out upwards. -/
structure Rewrites (old : Db) (r : Rewrite) (new : Db) : Prop where
  tables : new.tables = r.tables old.tables
  next_txn : old.next_txn ≤ new.next_txn

/-- The new tables begin with the old ones, which may have got indexes. -/
def Keeps (old new : List TableDef) : Prop :=
  List.Forall₂ (fun t t' : TableDef => t'.schema = t.schema ∧ t.sec <+: t'.sec)
    old (new.take old.length)

theorem keeps_refl (ts : List TableDef) : Keeps ts ts := by
  rw [Keeps, take_length]
  exact forall₂_same.2 fun t _ => ⟨rfl, prefix_refl _⟩

theorem Rewrite.keeps (r : Rewrite) (ts : List TableDef) : Keeps ts (r.tables ts) := by
  cases r with
  | create schema stats =>
    rw [Keeps, Rewrite.tables, take_left]
    exact forall₂_same.2 fun t _ => ⟨rfl, prefix_refl _⟩
  | create_index i s =>
    rw [Keeps, Rewrite.tables, take_of_length_le (by simp)]
    refine forall₂_iff_get.2 ⟨by simp, fun k hk hk' => ?_⟩
    simp only [get_eq_getElem, getElem_modify]
    split
    · exact ⟨rfl, prefix_append _ _⟩
    · exact ⟨rfl, prefix_refl _⟩
  | analyze stats =>
    rw [Keeps, Rewrite.tables, take_of_length_le (by simp)]
    exact forall₂_map_right_iff.2 (forall₂_same.2 fun t _ => ⟨rfl, prefix_refl _⟩)
  | close => exact keeps_refl ts

/-- What has to be there after a reopen: every table with its schema and its
    indexes and a counter that did not go back; then no `CREATE TABLE` removes
    the files of one of them. -/
structure Survives (old : Db) (d : OpenDb) : Prop where
  tables : ∀ t ∈ old.tables, ∃ t' ∈ d.tables, t'.schema = t.schema ∧ ∀ s ∈ t.sec, s ∈ t'.sec
  counter : (old.next_txn : Int) ≤ d.next_txn
  files : ∀ t ∈ old.tables, create_unlinks d (c_string t.schema) = false

/-- The bytes of the last old table that count: without indexes their number
    may be missing. -/
def needed_table (t : TableDef) : Nat :=
  SCHEMA_BYTES + if t.sec = [] then 0 else 4 + SEC_BYTES * t.sec.length

/-- The bytes of the new records up to there. -/
def needed_tables : List TableDef → List TableDef → Nat
  | [], _ => 0
  | [t], _ => needed_table t
  | _ :: t :: ts, t' :: ts' => table_len t' + needed_tables (t :: ts) ts'
  | _ :: _ :: _, [] => 0

/-- A kill is harmless once so many bytes are written. -/
def needed (old new : Db) : Nat :=
  if old.tables = [] then (if old.next_txn = 1 then 0 else 8)
  else 8 + needed_tables old.tables new.tables

theorem keeps_cons (h : Keeps (t :: old) new) :
    ∃ t' new', new = t' :: new' ∧ t'.schema = t.schema ∧ t.sec <+: t'.sec ∧ Keeps old new' := by
  cases new with
  | nil => simp [Keeps] at h
  | cons t' new' =>
    obtain ⟨⟨hschema, hsec⟩, hrest⟩ := forall₂_cons.1 h
    exact ⟨t', new', rfl, hschema, hsec, hrest⟩

/-- The first part of a list without repetitions lies among the first `k`
    elements exactly when it is not longer. -/
theorem isPrefix_take_iff {α : Type*} {xs ys : List α} (hpre : xs <+: ys) (hnodup : ys.Nodup)
    (hne : xs ≠ []) (k : Nat) : (∀ s ∈ xs, s ∈ ys.take k) ↔ xs.length ≤ k := by
  have hxs : xs = ys.take xs.length := prefix_iff_eq_take.1 hpre
  have hpos : 0 < xs.length := length_pos_iff.2 hne
  constructor
  · intro h
    -- look at the last element
    have hlt : xs.length - 1 < xs.length := by omega
    obtain ⟨i, hi, heq⟩ := mem_iff_getElem.1 (h _ (getElem_mem hlt))
    rw [hpre.getElem hlt, getElem_take] at heq
    have := (List.Nodup.getElem_inj_iff hnodup).1 heq
    simp only [length_take] at hi
    omega
  · intro h s hs
    rw [hxs] at hs
    exact (take_subset_take_left ys h) hs

theorem needed_table_le_iff (hsec : t.sec <+: t'.sec) (hnodup : t'.sec.Nodup)
    (m : Nat) : needed_table t ≤ m ↔ SCHEMA_BYTES ≤ m ∧ ∀ s ∈ t.sec, s ∈ (cut_table t' m).sec := by
  rw [needed_table, cut_table]
  by_cases hnil : t.sec = []
  · simp [hnil]
  · have hpos : 0 < t.sec.length := length_pos_iff.2 hnil
    rw [if_neg hnil, isPrefix_take_iff hsec hnodup hnil, Nat.le_div_iff_mul_le (by decide),
      SEC_BYTES_eq]
    omega

theorem cut_tables_schema {m : Nat} {t' : Restored}
    (h : t' ∈ cut_tables ts m) : ∃ t ∈ ts, t'.schema = t.schema := by
  induction ts generalizing m with
  | nil => cases h
  | cons t ts ih =>
    rw [cut_tables] at h
    split at h
    · rcases mem_cons.1 h with rfl | h
      · exact ⟨t, by simp, rfl⟩
      · obtain ⟨t, ht, heq⟩ := ih h
        exact ⟨t, by simp [ht], heq⟩
    · cases h

/-- What a prefix must restore of one old table. -/
def Kept (t : TableDef) (ts : List Restored) : Prop :=
  ∃ t' ∈ ts, t'.schema = t.schema ∧ ∀ s ∈ t.sec, s ∈ t'.sec

theorem kept_head_iff (hschema : t'.schema = t.schema)
    (hnames : ((t' :: new).map fun t => c_string t.schema).Nodup) (hsec : t.sec <+: t'.sec)
    (hnodup : t'.sec.Nodup) (m : Nat) : Kept t (cut_tables (t' :: new) m) ↔ needed_table t ≤ m := by
  rw [needed_table_le_iff hsec hnodup, cut_tables]
  constructor
  · rintro ⟨r, hr, hrs, hall⟩
    split at hr
    case isTrue h =>
      rcases mem_cons.1 hr with rfl | hr
      · exact ⟨h, hall⟩
      · -- a later table has another name
        obtain ⟨u, hu, heq⟩ := cut_tables_schema hr
        refine absurd ?_ (nodup_cons.1 hnames).1
        have hsame : u.schema = t'.schema := by rw [← heq, hrs, hschema]
        exact mem_map.2 ⟨u, hu, congrArg c_string hsame⟩
    case isFalse _ => cases hr
  · rintro ⟨h, hall⟩
    rw [if_pos h]
    exact ⟨_, mem_cons_self, hschema, hall⟩

theorem kept_tail_iff {t' u : TableDef} {m : Nat} (hu : u ∈ new) (hut : u.schema = t.schema)
    (hnames : ((t' :: new).map fun t => c_string t.schema).Nodup) :
    Kept t (cut_tables (t' :: new) m) ↔
      SCHEMA_BYTES ≤ m ∧ Kept t (cut_tables new (m - table_len t')) := by
  rw [cut_tables]
  constructor
  · rintro ⟨r, hr, hrs, hall⟩
    split at hr
    case isTrue h =>
      rcases mem_cons.1 hr with rfl | hr
      · refine absurd ?_ (nodup_cons.1 hnames).1
        have hsame : u.schema = t'.schema := by rw [hut, ← hrs]; rfl
        exact mem_map.2 ⟨u, hu, congrArg c_string hsame⟩
      · exact ⟨h, r, hr, hrs, hall⟩
    case isFalse _ => cases hr
  · rintro ⟨h, r, hr, hrs, hall⟩
    rw [if_pos h]
    exact ⟨r, by simp [hr], hrs, hall⟩

theorem needed_tables_pos (hk : Keeps old new) (hne : old ≠ []) : 0 < needed_tables old new := by
  have hpos : 0 < SCHEMA_BYTES := by decide
  match old, hne with
  | [t], _ =>
    rw [needed_tables, needed_table]
    omega
  | t :: t₂ :: old, _ =>
    obtain ⟨t', new', rfl, -⟩ := keeps_cons hk
    rw [needed_tables, table_len]
    omega

/-- The records restore the old tables exactly when the needed bytes are there. -/
theorem kept_iff (hk : Keeps old new) (hne : old ≠ [])
    (hnames : (new.map fun t => c_string t.schema).Nodup) (hsecs : ∀ t ∈ new, t.sec.Nodup) (m : Nat)
    : (∀ t ∈ old, Kept t (cut_tables new m)) ↔ needed_tables old new ≤ m := by
  induction old generalizing new m with
  | nil => exact absurd rfl hne
  | cons t old ih =>
    obtain ⟨t', new', rfl, hschema, hsec, hrest⟩ := keeps_cons hk
    have hhead := kept_head_iff hschema hnames hsec (hsecs t' (by simp)) m
    cases old with
    | nil => simpa [needed_tables] using hhead
    | cons t₂ old =>
      have ih' := ih hrest (by simp) (nodup_cons.1 hnames).2
        (fun t ht => hsecs t (by simp [ht])) (m - table_len t')
      -- each later old table has its record behind the first
      have htail : ∀ u ∈ t₂ :: old, Kept u (cut_tables (t' :: new') m) ↔
          SCHEMA_BYTES ≤ m ∧ Kept u (cut_tables new' (m - table_len t')) := by
        intro u hu
        obtain ⟨i, hi, rfl⟩ := mem_iff_getElem.1 hu
        have hi' : i < (new'.take (t₂ :: old).length).length := hrest.length_eq ▸ hi
        exact kept_tail_iff (mem_of_mem_take (getElem_mem hi')) (hrest.get hi hi').1 hnames
      rw [needed_tables]
      constructor
      · intro hall
        have hle := ih'.1 fun u hu => ((htail u hu).1 (hall u (by simp [hu]))).2
        have hpos := needed_tables_pos hrest (by simp)
        omega
      · intro hle u hu
        have hfirst : needed_table t ≤ table_len t' := by
          have hlen := hsec.length_le
          rw [needed_table, table_len, SEC_BYTES_eq]
          split <;> omega
        have hschema_le : SCHEMA_BYTES ≤ table_len t' := by rw [table_len]; omega
        rcases mem_cons.1 hu with rfl | hu
        · exact hhead.2 (by omega)
        · exact (htail u hu).2 ⟨by omega, ih'.2 (by omega) u hu⟩

/-- A table that is kept is found under its name, so its files stay. -/
theorem create_unlinks_kept {d : OpenDb} (h : Kept t d.tables) :
    create_unlinks d (c_string t.schema) = false := by
  obtain ⟨t', ht', hschema, -⟩ := h
  have hfound : (find_table d (c_string t.schema)).isSome = true := by
    rw [find_table, find?_isSome]
    exact ⟨t', ht', by simp [hschema]⟩
  simp [create_unlinks, Option.isNone_eq_false_iff.2 hfound]

/-- A kill inside `catalog_write` loses nothing exactly when the needed bytes
    were written. -/
theorem catalog_survives_iff {old new : Db} {r : Rewrite} (h : Rewrites old r new) (m : Nat) :
    Survives old (db_open (some ((catalog_write new).take m))) ↔ needed old new ≤ m := by
  have hkeeps : Keeps old.tables new.tables := h.tables ▸ r.keeps old.tables
  have hsecs : ∀ t ∈ new.tables, t.sec.Nodup := fun t ht => (new.sec_names t ht).of_map
  have htxn := h.next_txn
  have hone := old.txn.1
  rw [db_open_take, needed]
  by_cases hnil : old.tables = []
  · -- nothing to restore but the counter
    rw [if_pos hnil]
    constructor
    · intro hs
      have hcounter := hs.counter
      dsimp only at hcounter
      split_ifs at hcounter ⊢ <;> omega
    · intro hle
      refine ⟨by simp [hnil], ?_, by simp [hnil]⟩
      dsimp only
      split_ifs at hle ⊢ <;> omega
  · rw [if_neg hnil]
    have hkept := kept_iff hkeeps hnil new.names hsecs (m - 8)
    have hpos := needed_tables_pos hkeeps hnil
    constructor
    · intro hs
      have := hkept.1 hs.tables
      omega
    · intro hle
      have htables := hkept.2 (by omega)
      refine ⟨htables, ?_, fun t ht => create_unlinks_kept (htables t ht)⟩
      rw [if_pos (by omega)]
      exact Int.ofNat_le.2 htxn

/-- A schema with a name of one letter. -/
def named (c : UInt8) : Image SCHEMA_BYTES :=
  ⟨c :: List.replicate (SCHEMA_BYTES - 1) 0, by rw [length_cons, length_replicate]; rfl⟩

def zeros (n : Nat) : Image n := ⟨List.replicate n 0, length_replicate⟩

def no_stats : FileStats := ⟨zeros 4, zeros 8, zeros 8, zeros 8, zeros 8⟩

/-- A database with the table `A` and ids below 3 used. -/
def one_table : Db where
  tables := [⟨named 65, [], no_stats⟩]
  next_txn := 3
  few := by decide
  few_sec := by simp
  names := by simp
  sec_names := by simp
  txn := by decide

/-- The same after `CREATE TABLE B`. -/
def two_tables : Db where
  tables := [⟨named 65, [], no_stats⟩, ⟨named 66, [], no_stats⟩]
  next_txn := 4
  few := by decide
  few_sec := by simp
  names := by
    have hname : ∀ c : UInt8, c ≠ 0 → c_string (named c) = [c] := by
      intro c hc
      simp [c_string, named, SQL_NAME_LEN, hc]
    simp [hname]
  sec_names := by simp
  txn := by decide

theorem one_table_rewrites :
    Rewrites one_table (.create (named 66) no_stats) two_tables := ⟨rfl, by decide⟩

/-- With the record of `A` complete the second table may be lost, not the
    first. -/
theorem catalog_survives_iff_two_tables :
    Rewrites one_table (.create (named 66) no_stats) two_tables ∧
      Survives one_table (db_open (some ((catalog_write two_tables).take (8 + SCHEMA_BYTES)))) :=
  ⟨one_table_rewrites, (catalog_survives_iff one_table_rewrites _).2 (by decide)⟩

/-- `CREATE TABLE B` is killed right after `fopen` emptied the file: the table
    `A` is gone. -/
theorem catalog_lost_in_rewrite :
    ¬ ∀ (old new : Db) (r : Rewrite), Rewrites old r new →
      ∀ m, Survives old (db_open (some ((catalog_write new).take m))) := by
  intro h
  have hlost := h one_table two_tables _ one_table_rewrites 0
  rw [db_open_take] at hlost
  obtain ⟨t', ht', -⟩ := hlost.tables ⟨named 65, [], no_stats⟩ (by simp [one_table])
  have hnone : cut_tables two_tables.tables 0 = [] := if_neg (by decide)
  simp [hnone] at ht'

end MiniDb.CatalogFile
