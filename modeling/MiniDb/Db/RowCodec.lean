import MiniDb.Framework.Bytes
import MiniDb.Db.StoredRows

/-! # The bytes of a row

  A record is the two transaction ids, a bitmap with a bit for every NULL and
  the values one after the other.  `encode_row` narrows integers to 32 bits
  and does not look at the end of the buffer it fills. -/

namespace MiniDb

open Framework List Option

/-- The NULL bit of a column. -/
def null_bit (bits : List UInt8) (i : Nat) : Bool := (bits.getD (i / 8) 0).toNat.testBit (i % 8)

def set_null (bits : List UInt8) (i : Nat) : List UInt8 :=
  bits.modify (i / 8) fun b => UInt8.ofNat (b.toNat ||| 2 ^ (i % 8))

/-- The bytes of an `int32_t`. -/
def int32_bytes (v : Int) : List UInt8 := le_bytes 4 (v % 2 ^ 32).toNat

def bytes_int32 (bs : List UInt8) : Int := int32_cast (le_nat bs)

/-- The bytes that a value takes, if it fits the column. -/
def value_bytes (c : ColumnDef) : Value → Option (List UInt8)
  | .null => some []
  | .int v => if c.type = .COL_INT then some (int32_bytes v) else none
  | .text s => if c.type = .COL_TEXT then some (le_bytes 2 s.length ++ s.take (s.length % 2 ^ 16)) else none

/-- The loop over the columns from `i` on: the bitmap and the bytes of the values. -/
def encode_cols : Nat → List ColumnDef → List Value → List UInt8 → Option (List UInt8 × List UInt8)
  | i, c :: cs, v :: vs, bits =>
    (value_bytes c v).bind fun bs =>
      (encode_cols (i + 1) cs vs (if v = .null then set_null bits i else bits)).map fun r => (r.1, bs ++ r.2)
  | _, _, _, bits => some (bits, [])

def bitmap_size (schema : CreateStmt) : Nat := (schema.columns.length + 7) / 8

def encode_row_bytes (schema : CreateStmt) (vals : List Value) (xmin xmax : Int) : Option (List UInt8) :=
  if vals.length ≠ schema.columns.length then none
  else (encode_cols 0 schema.columns vals (List.replicate (bitmap_size schema) 0)).map fun r =>
    int32_bytes xmin ++ int32_bytes xmax ++ r.1 ++ r.2

def db_rec_xmin (rec : List UInt8) : Int := bytes_int32 (rec.take 4)

def db_rec_xmax (rec : List UInt8) : Int := bytes_int32 ((rec.drop 4).take 4)

/-- The loop over the columns from `i` on; `bs` are the bytes from the offset on. -/
def decode_cols (bits : List UInt8) : Nat → List ColumnDef → List UInt8 → Row
  | _, [], _ => []
  | i, c :: cs, bs =>
    if null_bit bits i then .null :: decode_cols bits (i + 1) cs bs
    else if c.type = .COL_INT then
      .int (bytes_int32 (bs.take 4)) :: decode_cols bits (i + 1) cs (bs.drop 4)
    else
      let len := le_nat (bs.take 2)
      .text ((bs.drop 2).take len) :: decode_cols bits (i + 1) cs ((bs.drop 2).drop len)

def decode_row (schema : CreateStmt) (rec : List UInt8) : Row :=
  decode_cols (rec.drop MVCC_HDR) 0 schema.columns (rec.drop (MVCC_HDR + bitmap_size schema))

/-- The record that `stamp_xmax` writes back. -/
def stamp_bytes (rec : List UInt8) (xmax : Int) : List UInt8 := rec.take 4 ++ int32_bytes xmax ++ rec.drop 8

/-! ### Integers and bits -/

theorem int32_bytes_length (v : Int) : (int32_bytes v).length = 4 := le_bytes_length ..

theorem bytes_int32_bytes (v : Int) : bytes_int32 (int32_bytes v) = int32_cast v := by
  unfold bytes_int32 int32_bytes
  rw [le_nat_le_bytes (by omega)]
  unfold int32_cast
  omega

variable {bits : List UInt8} {i : Nat} {cs : List ColumnDef} {vs : List Value}
  {r : List UInt8 × List UInt8}

theorem null_bit_set_null (hi : i / 8 < bits.length) (j : Nat) :
    null_bit (set_null bits i) j = (null_bit bits j || decide (j = i)) := by
  unfold null_bit set_null
  simp only [getD_eq_getElem?_getD, getElem?_modify]
  by_cases hbyte : i / 8 = j / 8
  · rw [← hbyte, getElem?_eq_getElem hi]
    generalize bits[i / 8] = b
    have hfit : 2 ^ (i % 8) < 256 :=
      Nat.pow_lt_pow_right (show 1 < 2 by decide) (Nat.mod_lt i (show 0 < 8 by decide))
    have hsame : i % 8 = j % 8 ↔ j = i := by omega
    simp [Nat.mod_eq_of_lt hfit, Nat.testBit_two_pow, hsame]
  · have hne : j ≠ i := fun h => hbyte (h ▸ rfl)
    simp [hbyte, hne]

theorem null_bit_append {j : Nat} (hj : j / 8 < bits.length) (rest : List UInt8) :
    null_bit (bits ++ rest) j = null_bit bits j := by
  simp [null_bit, getElem?_append_left hj]

/-! ### Columns -/

/-- Reading the values of the columns from `i` on; `rest` and `more` are what
    follows the bitmap and the values. -/
theorem decode_encode_cols (hlen : vs.length = cs.length) (hroom : i + cs.length ≤ 8 * bits.length)
    (htexts : ∀ s, .text s ∈ vs → s.length < 2 ^ 16) (hclear : ∀ j, i ≤ j → null_bit bits j = false)
    (h : encode_cols i cs vs bits = some r) :
    r.1.length = bits.length ∧ (∀ j < i, null_bit r.1 j = null_bit bits j) ∧
      ∀ rest more, decode_cols (r.1 ++ rest) i cs (r.2 ++ more) = vs.map Value.stored := by
  induction cs generalizing i vs bits r with
  | nil =>
    obtain rfl := length_eq_zero_iff.mp hlen
    cases h
    exact ⟨rfl, fun _ _ => rfl, fun _ _ => rfl⟩
  | cons c cs ih =>
    cases vs with
    | nil => cases hlen
    | cons v vs =>
      simp only [length_cons] at hlen hroom
      obtain ⟨bs, hbs, h⟩ := bind_eq_some_iff.mp h
      obtain ⟨r, hr, rfl⟩ := map_eq_some_iff.mp h
      have hi : i / 8 < bits.length := by omega
      generalize hbits : (if v = .null then set_null bits i else bits) = bits' at hr
      have hsize : bits'.length = bits.length := by
        rw [← hbits]
        split <;> simp [set_null]
      have hbit : ∀ j, null_bit bits' j = (null_bit bits j || decide (v = .null ∧ j = i)) := by
        intro j
        rw [← hbits]
        split
        · next hv => simp [null_bit_set_null hi, hv]
        · next hv => simp [hv]
      obtain ⟨hlen', hbefore, hdec⟩ := ih (by omega) (by omega)
        (fun s hs => htexts s (mem_cons_of_mem _ hs))
        (fun j hj => by rw [hbit, hclear j (by omega)]; simp; omega) hr
      refine ⟨hlen'.trans hsize, fun j hj => ?_, fun rest more => ?_⟩
      · rw [hbefore j (by omega), hbit]
        simp
        omega
      · have hnull : null_bit (r.1 ++ rest) i = decide (v = .null) := by
          rw [null_bit_append (by omega), hbefore i (by omega), hbit, hclear i le_rfl]
          simp
        unfold decode_cols
        rw [hnull, map_cons]
        cases v with
        | null =>
          cases hbs
          rw [if_pos (by decide)]
          exact congrArg _ (hdec rest more)
        | int v =>
          obtain ⟨htype, hbs⟩ := ite_none_right_eq_some.mp hbs
          cases hbs
          rw [if_neg (by simp), if_pos htype, append_assoc, take_left' (int32_bytes_length v),
            drop_left' (int32_bytes_length v), bytes_int32_bytes, hdec]
          rfl
        | text s =>
          obtain ⟨htype, hbs⟩ := ite_none_right_eq_some.mp hbs
          cases hbs
          have hs : s.length < 2 ^ 16 := htexts s (by simp)
          have hall : s.take (s.length % 2 ^ 16) = s := by rw [Nat.mod_eq_of_lt hs, take_length]
          dsimp only
          rw [if_neg (by simp), if_neg (by simp [htype]), hall, append_assoc, append_assoc,
            take_left' (le_bytes_length ..), drop_left' (le_bytes_length ..),
            le_nat_le_bytes hs, take_left' rfl, drop_left' rfl, hdec]
          rfl

/-- The bytes hold the row that the heap keeps of the values. -/
theorem encode_values_of_cols (hlen : vs.length = cs.length)
    (htexts : ∀ s, .text s ∈ vs → s.length < 2 ^ 16) (h : encode_cols i cs vs bits = some r) :
    encode_values cs vs = some (vs.map Value.stored, r.2.length) := by
  induction cs generalizing i vs bits r with
  | nil =>
    obtain rfl := length_eq_zero_iff.mp hlen
    cases h
    rfl
  | cons c cs ih =>
    cases vs with
    | nil => cases hlen
    | cons v vs =>
      obtain ⟨bs, hbs, h⟩ := bind_eq_some_iff.mp h
      obtain ⟨r, hr, rfl⟩ := map_eq_some_iff.mp h
      have hrest := ih (Nat.succ.inj hlen) (fun s hs => htexts s (mem_cons_of_mem _ hs)) hr
      cases v with
      | null =>
        cases hbs
        simp [encode_values, hrest, Value.stored]
      | int v =>
        obtain ⟨htype, hbs⟩ := ite_none_right_eq_some.mp hbs
        cases hbs
        simp [encode_values, hrest, htype, Value.stored, int32_bytes_length, Nat.add_comm]
      | text s =>
        obtain ⟨htype, hbs⟩ := ite_none_right_eq_some.mp hbs
        cases hbs
        have hs : s.length < 2 ^ 16 := htexts s (by simp)
        simp [encode_values, hrest, htype, Value.stored]
        omega

/-- The bytes of the values up to the first that does not fit its column. -/
def body_end : List ColumnDef → List Value → Nat
  | c :: cs, v :: vs =>
    match value_bytes c v with
    | none => 0
    | some bs => bs.length + body_end cs vs
  | _, _ => 0

/-- All bytes that `encode_row` writes are before this offset, and it writes
    the last of them. -/
def encode_row_end (schema : CreateStmt) (vals : List Value) : Nat :=
  if vals.length ≠ schema.columns.length then 0
  else MVCC_HDR + bitmap_size schema + body_end schema.columns vals

theorem body_end_of_cols (h : encode_cols i cs vs bits = some r) : body_end cs vs = r.2.length := by
  induction cs generalizing i vs bits r with
  | nil =>
    cases h
    rfl
  | cons c cs ih =>
    cases vs with
    | nil =>
      cases h
      rfl
    | cons v vs =>
      obtain ⟨bs, hbs, h⟩ := bind_eq_some_iff.mp h
      obtain ⟨r, hr, rfl⟩ := map_eq_some_iff.mp h
      rw [body_end, hbs, ih hr, length_append]

/-! ### Records -/

section Records

variable {schema : CreateStmt} {vals : List Value} {xmin xmax : Int} {rec : List UInt8}
  (body : List UInt8)

/-- The texts that the parser makes. -/
def TextsFit (vals : List Value) : Prop := ∀ s, .text s ∈ vals → s.length < SQL_TEXT_LEN

theorem encode_row_bytes_spec (htexts : TextsFit vals)
    (h : encode_row_bytes schema vals xmin xmax = some rec) :
    ∃ body, rec = int32_bytes xmin ++ (int32_bytes xmax ++ body) ∧
      (∀ x y, decode_row schema (int32_bytes x ++ (int32_bytes y ++ body)) = vals.map Value.stored) ∧
      ∃ len, rec.length = MVCC_HDR + bitmap_size schema + len ∧
        encode_values schema.columns vals = some (vals.map Value.stored, len) ∧
        body_end schema.columns vals = len := by
  unfold encode_row_bytes at h
  split at h
  · cases h
  next hlen =>
  obtain ⟨r, hr, rfl⟩ := map_eq_some_iff.mp h
  have hlen := not_not.mp hlen
  have htexts' : ∀ s, .text s ∈ vals → s.length < 2 ^ 16 := fun s hs =>
    Nat.lt_trans (htexts s hs) (by decide)
  have hclear : ∀ j, null_bit (List.replicate (bitmap_size schema) 0) j = false := fun j => by
    simp only [null_bit, getD_eq_getElem?_getD, getElem?_replicate]
    split <;> simp
  have hroom : schema.columns.length ≤ 8 * bitmap_size schema := by
    unfold bitmap_size
    omega
  obtain ⟨hsize, -, hdec⟩ := decode_encode_cols hlen (by simpa using hroom) htexts' (fun j _ => hclear j) hr
  rw [length_replicate] at hsize
  refine ⟨r.1 ++ r.2, by simp, fun x y => ?_, r.2.length, ?_, encode_values_of_cols hlen htexts' hr,
    body_end_of_cols hr⟩
  · have h8 : (int32_bytes x ++ int32_bytes y).length = MVCC_HDR := by
      simp [int32_bytes_length, MVCC_HDR]
    unfold decode_row
    rw [← append_assoc, drop_left' h8, ← drop_drop, drop_left' h8, drop_left' hsize]
    simpa using hdec r.2 []
  · simp [int32_bytes_length, hsize, MVCC_HDR]
    omega

/-- The version that the heap keeps is what the bytes say, and the last byte
    written is the last of the record. -/
theorem encode_row_of_bytes (htexts : TextsFit vals) {xmin xmax : Nat}
    (h : encode_row_bytes schema vals xmin xmax = some rec) :
    encode_row schema vals xmin xmax = some ⟨xmin, xmax, decode_row schema rec, rec.length⟩ ∧
      encode_row_end schema vals = rec.length := by
  have hlen : vals.length = schema.columns.length := by
    unfold encode_row_bytes at h
    split at h
    · cases h
    · next hlen => exact not_not.mp hlen
  obtain ⟨body, hrec, hdec, len, hlength, hvals, hend⟩ := encode_row_bytes_spec htexts h
  unfold encode_row encode_row_end
  rw [hvals, hlength, hend, if_neg (not_not.mpr hlen), hrec, hdec]
  exact ⟨rfl, rfl⟩

theorem db_rec_header (hmin : Int32 xmin) (hmax : Int32 xmax) :
    db_rec_xmin (int32_bytes xmin ++ (int32_bytes xmax ++ body)) = xmin ∧
      db_rec_xmax (int32_bytes xmin ++ (int32_bytes xmax ++ body)) = xmax := by
  unfold db_rec_xmin db_rec_xmax
  rw [take_left' (int32_bytes_length _), drop_left' (int32_bytes_length _),
    take_left' (int32_bytes_length _), bytes_int32_bytes, bytes_int32_bytes]
  exact ⟨int32_cast_of_fits hmin, int32_cast_of_fits hmax⟩

theorem stamp_bytes_eq (x : Int) :
    stamp_bytes (int32_bytes xmin ++ (int32_bytes xmax ++ body)) x =
      int32_bytes xmin ++ (int32_bytes x ++ body) := by
  unfold stamp_bytes
  rw [take_left' (int32_bytes_length _), ← append_assoc (int32_bytes xmin),
    drop_left' (by simp [int32_bytes_length]), append_assoc]

theorem map_stored_eq_iff : vals.map Value.stored = vals ↔ ∀ v ∈ vals, v.Fits := by
  refine ⟨fun h v hv => ?_, fun h => (map_congr_left fun v hv => (h v hv).stored).trans (map_id _)⟩
  rw [← h] at hv
  obtain ⟨w, -, rfl⟩ := mem_map.mp hv
  exact w.stored_fits

/-- A record reads back as the values it was made of exactly if every integer
    has 32 bits.  The header is kept, and a new `xmax` changes nothing else. -/
theorem row_round_trip_iff (htexts : TextsFit vals) (hmin : Int32 xmin) (hmax : Int32 xmax)
    (h : encode_row_bytes schema vals xmin xmax = some rec) :
    (decode_row schema rec = vals ↔ ∀ v ∈ vals, v.Fits) ∧ db_rec_xmin rec = xmin ∧ db_rec_xmax rec = xmax ∧
      ∀ x, Int32 x → decode_row schema (stamp_bytes rec x) = decode_row schema rec ∧
        db_rec_xmin (stamp_bytes rec x) = xmin ∧ db_rec_xmax (stamp_bytes rec x) = x := by
  obtain ⟨body, rfl, hdec, -⟩ := encode_row_bytes_spec htexts h
  refine ⟨by rw [hdec, map_stored_eq_iff], (db_rec_header body hmin hmax).1, (db_rec_header body hmin hmax).2,
    fun x hx => ?_⟩
  rw [stamp_bytes_eq, hdec, hdec]
  exact ⟨rfl, db_rec_header body hmin hx⟩

end Records

/-- `CREATE TABLE t (a INT, b TEXT)` -/
def int_text : CreateStmt := ⟨"t", [⟨"a", .COL_INT, false⟩, ⟨"b", .COL_TEXT, false⟩], 0⟩

theorem encode_row_of_bytes_null : ∃ rec, encode_row int_text [.int 3, .null] 7 0 =
    some ⟨7, 0, decode_row int_text rec, rec.length⟩ :=
  ⟨_, (encode_row_of_bytes (fun s hs => by simp at hs) rfl).1⟩

theorem row_round_trip_null_text :
    ∃ rec, encode_row_bytes int_text [.int (-3), .null] 7 0 = some rec ∧
      decode_row int_text rec = [.int (-3), .null] := by
  obtain ⟨rec, hrec⟩ := isSome_iff_exists.mp
    (show (encode_row_bytes int_text [.int (-3), .null] 7 0).isSome = true by decide +kernel)
  exact ⟨rec, hrec, (row_round_trip_iff (fun s hs => by simp at hs) (by decide) (by decide) hrec).1.mpr
    (by decide)⟩

/-- The integer 2³¹ reads back as -2³¹. -/
theorem large_integer_wraps :
    ¬∀ (schema : CreateStmt) (vals : List Value) (xmin xmax : Int) (rec : List UInt8),
      1 ≤ schema.columns.length → schema.columns.length ≤ SQL_MAX_COLS → TextsFit vals → Int32 xmin →
      Int32 xmax → encode_row_bytes schema vals xmin xmax = some rec → decode_row schema rec = vals := by
  intro hall
  obtain ⟨rec, hrec, hdec⟩ := map_eq_some_iff.mp
    (show (encode_row_bytes int_text [.int (2 ^ 31), .null] 1 0).map (decode_row int_text) =
      some [.int (-2 ^ 31), .null] by decide +kernel)
  have heq := hall int_text [.int (2 ^ 31), .null] 1 0 rec (by decide) (by decide)
    (fun s hs => by simp at hs) (by decide) (by decide) hrec
  exact absurd (hdec.symm.trans heq) (by decide)

/-! ### The buffer -/

/-- The longest value of a column. -/
def ColumnDef.width (c : ColumnDef) : Nat :=
  match c.type with
  | .COL_INT => 4
  | .COL_TEXT => 2 + (SQL_TEXT_LEN - 1)

/-- The longest row. -/
def widest_row (schema : CreateStmt) : Nat :=
  MVCC_HDR + bitmap_size schema + (schema.columns.map ColumnDef.width).sum

theorem value_bytes_length {c : ColumnDef} {v : Value} {bs : List UInt8} (hv : TextsFit [v])
    (h : value_bytes c v = some bs) : bs.length ≤ c.width := by
  unfold ColumnDef.width
  cases v with
  | null =>
    cases h
    exact Nat.zero_le _
  | int v =>
    obtain ⟨htype, h⟩ := ite_none_right_eq_some.mp h
    cases h
    simp [htype, int32_bytes_length]
  | text s =>
    obtain ⟨htype, h⟩ := ite_none_right_eq_some.mp h
    cases h
    have hs := hv s (mem_singleton_self _)
    simp only [htype, length_append, le_bytes_length, length_take]
    omega

variable (cs : List ColumnDef)

theorem body_end_le (hvs : TextsFit vs) :
    body_end cs vs ≤ (cs.map ColumnDef.width).sum := by
  induction cs generalizing vs with
  | nil => exact le_of_eq (by cases vs <;> rfl)
  | cons c cs ih =>
    cases vs with
    | nil => exact Nat.zero_le _
    | cons v vs =>
      have hvs' : TextsFit vs := fun s hs => hvs s (mem_cons_of_mem _ hs)
      unfold body_end
      rw [map_cons, sum_cons]
      split
      · exact Nat.zero_le _
      · next bs hbs =>
        have hv : TextsFit [v] := fun s hs => hvs s (mem_singleton.mp hs ▸ mem_cons_self)
        exact Nat.add_le_add (value_bytes_length hv hbs) (ih hvs')

/-- A longest value of the column. -/
def ColumnDef.longest (c : ColumnDef) : Value :=
  match c.type with
  | .COL_INT => .int 0
  | .COL_TEXT => .text (List.replicate (SQL_TEXT_LEN - 1) 120)

theorem body_end_longest :
    body_end cs (cs.map ColumnDef.longest) = (cs.map ColumnDef.width).sum := by
  induction cs with
  | nil => rfl
  | cons c cs ih =>
    have hbytes : ∃ bs, value_bytes c c.longest = some bs ∧ bs.length = c.width := by
      unfold ColumnDef.longest ColumnDef.width value_bytes
      cases htype : c.type with
      | COL_INT => exact ⟨_, rfl, int32_bytes_length 0⟩
      | COL_TEXT =>
        refine ⟨_, rfl, ?_⟩
        rw [length_append, le_bytes_length, length_take, length_replicate]
        rfl
    obtain ⟨bs, hbs, hlen⟩ := hbytes
    rw [map_cons, map_cons, sum_cons, body_end, hbs, ← ih, ← hlen]

/-- The values of an INSERT, or the row of an UPDATE. -/
structure Writable (vals : List Value) : Prop where
  count : vals.length ≤ SQL_MAX_COLS
  texts : TextsFit vals

theorem Writable.set {row : List Value} (h : Writable row) {v : Value} (hv : TextsFit [v])
    (sci : Nat) :
    Writable (row.set sci v) := by
  refine ⟨by simpa using h.count, fun s hs => ?_⟩
  rcases mem_or_eq_of_mem_set hs with hs | hs
  · exact h.texts s hs
  · exact hv s (hs ▸ mem_singleton_self _)

/-- `INSERT` writes its values, `UPDATE` a row with one value replaced. -/
def StaysInside (schema : CreateStmt) : Prop :=
  (∀ vals, Writable vals → encode_row_end schema vals ≤ PAGE_SIZE) ∧
    ∀ row sci v, Writable row → TextsFit [v] → encode_row_end schema (row.set sci v) ≤ PAGE_SIZE

theorem encode_row_end_le {schema : CreateStmt} {vals : List Value} (h : Writable vals) :
    encode_row_end schema vals ≤ widest_row schema := by
  unfold encode_row_end
  split
  · exact Nat.zero_le _
  · exact Nat.add_le_add_left (body_end_le _ h.texts) _

theorem sum_width : ∃ k ≤ cs.length, (cs.map ColumnDef.width).sum = 4 * cs.length + 253 * k := by
  induction cs with
  | nil => exact ⟨0, le_rfl, rfl⟩
  | cons c cs ih =>
    obtain ⟨k, hle, hk⟩ := ih
    have hc : c.width = 4 ∨ c.width = 257 := by
      unfold ColumnDef.width
      cases c.type <;> simp [SQL_TEXT_LEN]
    rw [map_cons, sum_cons, length_cons, hk]
    rcases hc with hc | hc
    · exact ⟨k, by omega, by omega⟩
    · exact ⟨k + 1, by omega, by omega⟩

/-- All writes are inside the buffer exactly for the schemas whose longest row
    fits it; and these rows fit an empty page too. -/
theorem encode_row_inside_iff {schema : CreateStmt} (hcols : schema.columns.length ≤ SQL_MAX_COLS) :
    (StaysInside schema ↔ widest_row schema ≤ PAGE_SIZE) ∧
      (widest_row schema ≤ PAGE_SIZE → ∀ vals, Writable vals →
        encode_row_end schema vals + SLOT_SIZE ≤ slotpage_free_space slotpage_init) := by
  refine ⟨⟨?_, fun hwide => ?_⟩, fun hwide vals hvals => ?_⟩
  · rintro ⟨hall, -⟩
    have hwide := hall (schema.columns.map ColumnDef.longest) ⟨by simpa using hcols, fun s hs => ?_⟩
    · unfold encode_row_end at hwide
      rwa [if_neg (by simp), body_end_longest] at hwide
    · obtain ⟨c, -, heq⟩ := mem_map.mp hs
      unfold ColumnDef.longest at heq
      split at heq
      · cases heq
      · cases heq
        rw [length_replicate]
        decide
  · have hall : ∀ vals, Writable vals → encode_row_end schema vals ≤ PAGE_SIZE :=
      fun vals hvals => (encode_row_end_le hvals).trans hwide
    exact ⟨hall, fun row sci v hrow hv => hall _ (hrow.set hv sci)⟩
  · -- with 32 columns, no width lies between that of a page and that of its free space
    have hle : _ ≤ widest_row schema := encode_row_end_le hvals
    obtain ⟨k, hk, hsum⟩ := sum_width schema.columns
    simp only [widest_row, bitmap_size, MVCC_HDR, PAGE_SIZE, SQL_MAX_COLS] at hwide hle hcols
    simp only [slotpage_free_space, slotpage_init, HEADER_SIZE, SLOT_SIZE, PAGE_SIZE, length_nil]
    have htexts : k ≤ 15 := by omega
    omega

theorem encode_row_inside_int_text : widest_row int_text = 270 ∧ StaysInside int_text :=
  ⟨by decide, (encode_row_inside_iff (by decide)).1.mpr (by decide)⟩

/-- A row of 32 texts of 255 bytes takes 8236 bytes. -/
theorem long_row_overflows :
    ¬∀ schema : CreateStmt, schema.columns.length ≤ SQL_MAX_COLS → StaysInside schema := by
  intro hall
  let schema : CreateStmt := ⟨"t", List.replicate 32 ⟨"a", .COL_TEXT, false⟩, 0⟩
  have hinside := (hall schema (by decide)).1 (List.replicate 32 (.text (List.replicate 255 120)))
    ⟨by decide, fun s hs => ?_⟩
  · exact absurd hinside (by decide +kernel)
  · cases eq_of_mem_replicate hs
    rw [length_replicate]
    decide

end MiniDb
