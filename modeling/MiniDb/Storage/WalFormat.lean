import MiniDb.Framework.Bytes
import MiniDb.Storage.Pager

/-! # WAL record format

  Every record is `type(1) + lsn(8) + payload`:

  * `REC_PAGE`   `pid(8) + after-image(PAGE_SIZE)`
  * `REC_COMMIT` no payload
  * `REC_BEGIN`  `base_pages(8)`
  * `REC_UNDO`   `pid(8) + before-image(PAGE_SIZE)`

  `recover_pass1` and `undo_loop` are the byte-level loops of `wal_recover` and
  `wal_undo`.  Skipping bytes past the end of the file succeeds, as `lseek`
  does, and the next read then finds the end of the file.

  `scan` is the same analysis on a list of records.  The two are connected by
  `recover_pass1_encode` and `undo_loop_encode`: on the encoding of a list of
  records, followed by a torn record, the loops compute what `scan` computes. -/

namespace MiniDb

open Framework List

def WAL_MAX_STAGED : Nat := 64

def REC_PAGE : UInt8 := 80
def REC_COMMIT : UInt8 := 67
def REC_BEGIN : UInt8 := 66
def REC_UNDO : UInt8 := 85

/-- A page id with the page's content. -/
abbrev StagedPage := Nat × Page

/-! ### Reading -/

/-- `lseek(fd, n, SEEK_CUR)`. -/
def skip_bytes (n : Nat) (log : List UInt8) : List UInt8 := log.drop n

/-- `read_exact` of a whole page. -/
def read_page (log : List UInt8) : Option (Page × List UInt8) :=
  if h : PAGE_SIZE ≤ log.length then
    some (⟨log.take PAGE_SIZE, by simp [h]⟩, log.drop PAGE_SIZE)
  else none

/-- Pass 1 of `wal_recover`: the after-images to redo, in commit order, and
    what follows the last commit marker.  `redo` holds the images of the
    segment being read; `loser` is the log from `loser_start` on. -/
def recover_pass1 : Nat → List UInt8 → List StagedPage → List UInt8 →
    List StagedPage × List UInt8
  | 0, _, _, loser => ([], loser)
  | _ + 1, [], _, loser => ([], loser)
  | fuel + 1, type :: log, redo, loser =>
      let log := skip_bytes 8 log -- lsn
      if type = REC_BEGIN then
        recover_pass1 fuel (skip_bytes 8 log) redo loser
      else if type = REC_UNDO then
        recover_pass1 fuel (skip_bytes (8 + PAGE_SIZE) log) redo loser
      else if type = REC_PAGE then
        match read_exact 8 log with
        | none => ([], loser)
        | some (pid, log) =>
            if redo.length < WAL_MAX_STAGED then
              match read_page log with
              | none => ([], loser)
              | some (data, log) => recover_pass1 fuel log (redo ++ [(le_nat pid, data)]) loser
            else
              recover_pass1 fuel (skip_bytes PAGE_SIZE log) redo loser
      else if type = REC_COMMIT then
        -- the segment is committed: its images are redone before the next ones
        let (writes, loser) := recover_pass1 fuel log [] log
        (redo ++ writes, loser)
      else ([], loser)

/-- The undo loop: before-images to write back, and the last `REC_BEGIN` base.
    Pass 2 of `wal_recover` skips after-images (`skip_pages`), `wal_undo` stops
    at one. -/
def undo_loop (skip_pages : Bool) : Nat → List UInt8 → Option Nat →
    List StagedPage × Option Nat
  | 0, _, base => ([], base)
  | _ + 1, [], base => ([], base)
  | fuel + 1, type :: log, base =>
      let log := skip_bytes 8 log -- lsn
      if type = REC_BEGIN then
        match read_exact 8 log with
        | none => ([], base)
        | some (b, log) => undo_loop skip_pages fuel log (some (le_nat b))
      else if type = REC_UNDO then
        match read_exact 8 log with
        | none => ([], base)
        | some (pid, log) =>
            match read_page log with
            | none => ([], base)
            | some (before, log) =>
                let (writes, base) := undo_loop skip_pages fuel log base
                ((le_nat pid, before) :: writes, base)
      else if type = REC_PAGE ∧ skip_pages then
        undo_loop skip_pages fuel (skip_bytes (8 + PAGE_SIZE) log) base
      else ([], base)

/-! ### Records -/

inductive Rec where
  | page (lsn pid : Nat) (data : Page)
  | commit (lsn : Nat)
  | begin (lsn base : Nat)
  | undo (lsn pid : Nat) (before : Page)

/-- The bytes `write_hdr` and the payload writes append. -/
def Rec.encode : Rec → List UInt8
  | .page lsn pid data => REC_PAGE :: le_bytes 8 lsn ++ le_bytes 8 pid ++ data.bytes
  | .commit lsn => REC_COMMIT :: le_bytes 8 lsn
  | .begin lsn base => REC_BEGIN :: le_bytes 8 lsn ++ le_bytes 8 base
  | .undo lsn pid before => REC_UNDO :: le_bytes 8 lsn ++ le_bytes 8 pid ++ before.bytes

def encode_all (rs : List Rec) : List UInt8 := rs.flatMap Rec.encode

/-- The ids in a record fit the 64-bit fields of the format. -/
def Rec.fits : Rec → Prop
  | .page _ pid _ => pid < MAX_PAGES
  | .commit _ => True
  | .begin _ base => base ≤ MAX_PAGES
  | .undo _ pid _ => pid < MAX_PAGES

@[simp] theorem encode_all_nil : encode_all [] = [] := rfl

@[simp] theorem encode_all_cons (r : Rec) (rs : List Rec) :
    encode_all (r :: rs) = r.encode ++ encode_all rs := rfl

@[simp] theorem encode_all_append (rs rs' : List Rec) :
    encode_all (rs ++ rs') = encode_all rs ++ encode_all rs' := by
  simp [encode_all]

theorem Rec.encode_length_pos (r : Rec) : 0 < r.encode.length := by
  cases r <;> simp [Rec.encode]

/-- There is fuel for every record of a log. -/
theorem length_le_encode_all (rs : List Rec) : rs.length ≤ (encode_all rs).length := by
  induction rs with
  | nil => simp
  | cons r rs ih =>
    have := r.encode_length_pos
    simp only [length_cons, encode_all_cons, length_append]
    omega

theorem le_nat_pid {pid : Nat} (h : pid ≤ MAX_PAGES) : le_nat (le_bytes 8 pid) = pid := by
  apply le_nat_le_bytes
  have : MAX_PAGES < 256 ^ 8 := by decide
  omega

theorem read_page_append (x : Page) (ys : List UInt8) :
    read_page (x.bytes ++ ys) = some (x, ys) := by
  have hlen : PAGE_SIZE ≤ (x.bytes ++ ys).length := by simp [x.size]
  have htake : (x.bytes ++ ys).take PAGE_SIZE = x.bytes := by
    rw [← x.size]; simp
  have hdrop : (x.bytes ++ ys).drop PAGE_SIZE = ys := by
    rw [← x.size]; simp
  obtain ⟨bytes, hsize⟩ := x
  simp only [read_page, dif_pos hlen, hdrop, Option.some.injEq, Prod.mk.injEq, and_true]
  congr 1

variable {n : Nat} {bs t : List UInt8} (s : Scan) {r : Rec} (b : Option Nat) {rs : List Rec}

theorem skip_bytes_append {xs : List UInt8} (h : xs.length = n) (ys : List UInt8) :
    skip_bytes n (xs ++ ys) = ys := by
  subst h
  simp [skip_bytes]

/-! ### The analysis on records -/

/-- What recovery knows after reading a prefix of the log. -/
structure Scan where
  /-- After-images of the committed segments, in commit order. -/
  redone : List StagedPage
  /-- After-images of the segment being read. -/
  pending : List StagedPage
  /-- Records after the last commit marker. -/
  loser : List Rec

def Scan.init : Scan := ⟨[], [], []⟩

def Scan.next (s : Scan) : Rec → Scan
  | .page lsn pid data =>
      { s with
        pending := if s.pending.length < WAL_MAX_STAGED then s.pending ++ [(pid, data)]
                   else s.pending
        loser := s.loser ++ [.page lsn pid data] }
  | .commit _ => ⟨s.redone ++ s.pending, [], []⟩
  | .begin lsn base => { s with loser := s.loser ++ [.begin lsn base] }
  | .undo lsn pid before => { s with loser := s.loser ++ [.undo lsn pid before] }

def scan (s : Scan) (rs : List Rec) : Scan := rs.foldl Scan.next s

@[simp] theorem scan_nil : scan s [] = s := rfl

@[simp] theorem scan_cons (r : Rec) (rs : List Rec) :
    scan s (r :: rs) = scan (s.next r) rs := rfl

theorem scan_append (rs rs' : List Rec) : scan s (rs ++ rs') = scan (scan s rs) rs' := by
  simp [scan]

/-- The before-images among some records. -/
def undo_images : List Rec → List StagedPage
  | [] => []
  | .undo _ pid before :: rs => (pid, before) :: undo_images rs
  | _ :: rs => undo_images rs

/-- The base of the last `REC_BEGIN`, else `b`. -/
def last_base (b : Option Nat) : List Rec → Option Nat
  | [] => b
  | .begin _ base :: rs => last_base (some base) rs
  | _ :: rs => last_base b rs

theorem undo_images_append (rs rs' : List Rec) :
    undo_images (rs ++ rs') = undo_images rs ++ undo_images rs' := by
  induction rs with
  | nil => rfl
  | cons r rs ih => cases r <;> simp [undo_images, ih]

theorem last_base_append (rs rs' : List Rec) :
    last_base b (rs ++ rs') = last_base (last_base b rs) rs' := by
  induction rs generalizing b with
  | nil => rfl
  | cons r rs ih => cases r <;> simp [last_base, ih]

theorem last_base_eq_or (rs : List Rec) :
    last_base b rs = (last_base none rs).or b := by
  induction rs generalizing b with
  | nil => simp [last_base]
  | cons r rs ih =>
    cases r with
    | begin lsn base =>
      simp only [last_base]
      rw [ih (some base), Option.or_assoc]
      rfl
    | _ => simpa [last_base] using ih b

/-! ### Reading an encoded log -/

/-- One record of pass 1. -/
theorem recover_pass1_rec (hr : r.fits) (fuel : Nat) (rest : List UInt8)
    (redo : List StagedPage) (loser : List UInt8) :
    recover_pass1 (fuel + 1) (r.encode ++ rest) redo loser =
      match r with
      | .page _ pid data =>
          recover_pass1 fuel rest
            (if redo.length < WAL_MAX_STAGED then redo ++ [(pid, data)] else redo) loser
      | .commit _ =>
          (redo ++ (recover_pass1 fuel rest [] rest).1, (recover_pass1 fuel rest [] rest).2)
      | .begin _ _ => recover_pass1 fuel rest redo loser
      | .undo _ _ _ => recover_pass1 fuel rest redo loser := by
  cases r with
  | page lsn pid data =>
    have hpid : le_nat (le_bytes 8 pid) = pid := le_nat_pid (le_of_lt hr)
    have hskip : skip_bytes PAGE_SIZE (data.bytes ++ rest) = rest :=
      skip_bytes_append data.size rest
    simp only [Rec.encode, cons_append, append_assoc, recover_pass1,
      skip_bytes_append (le_bytes_length 8 lsn), read_exact_append (le_bytes_length 8 pid),
      read_page_append, hskip, hpid]
    by_cases hlen : redo.length < WAL_MAX_STAGED
    · simp [hlen, REC_BEGIN, REC_UNDO, REC_PAGE]
    · simp [hlen, REC_BEGIN, REC_UNDO, REC_PAGE]
  | commit lsn =>
    simp [Rec.encode, recover_pass1, skip_bytes_append (le_bytes_length 8 lsn),
      REC_BEGIN, REC_UNDO, REC_PAGE, REC_COMMIT]
  | begin lsn base =>
    simp [Rec.encode, recover_pass1, skip_bytes_append (le_bytes_length 8 lsn),
      skip_bytes_append (le_bytes_length 8 base), REC_BEGIN]
  | undo lsn pid before =>
    have hskip : skip_bytes (8 + PAGE_SIZE) (le_bytes 8 pid ++ (before.bytes ++ rest)) = rest := by
      rw [← append_assoc]
      exact skip_bytes_append (by simp [before.size]) rest
    simp [Rec.encode, recover_pass1, skip_bytes_append (le_bytes_length 8 lsn), hskip,
      REC_BEGIN, REC_UNDO]

/-- One record of the undo loop; a commit marker ends it. -/
theorem undo_loop_rec (hr : r.fits) (skip_pages : Bool) (fuel : Nat)
    (rest : List UInt8) (base : Option Nat) :
    undo_loop skip_pages (fuel + 1) (r.encode ++ rest) base =
      match r with
      | .page _ _ _ => if skip_pages then undo_loop skip_pages fuel rest base else ([], base)
      | .commit _ => ([], base)
      | .begin _ b => undo_loop skip_pages fuel rest (some b)
      | .undo _ pid before =>
          ((pid, before) :: (undo_loop skip_pages fuel rest base).1,
            (undo_loop skip_pages fuel rest base).2) := by
  cases r with
  | page lsn pid data =>
    have hskip : skip_bytes (8 + PAGE_SIZE) (le_bytes 8 pid ++ (data.bytes ++ rest)) = rest := by
      rw [← append_assoc]
      exact skip_bytes_append (by simp [data.size]) rest
    simp [Rec.encode, undo_loop, skip_bytes_append (le_bytes_length 8 lsn), hskip,
      REC_BEGIN, REC_UNDO, REC_PAGE]
  | commit lsn =>
    simp [Rec.encode, undo_loop, REC_BEGIN, REC_UNDO, REC_PAGE, REC_COMMIT]
  | begin lsn b =>
    have hb : le_nat (le_bytes 8 b) = b := le_nat_pid hr
    simp [Rec.encode, undo_loop, skip_bytes_append (le_bytes_length 8 lsn),
      read_exact_append (le_bytes_length 8 b), hb, REC_BEGIN]
  | undo lsn pid before =>
    have hpid : le_nat (le_bytes 8 pid) = pid := le_nat_pid (le_of_lt hr)
    simp [Rec.encode, undo_loop, skip_bytes_append (le_bytes_length 8 lsn),
      read_exact_append (le_bytes_length 8 pid), read_page_append, hpid, REC_BEGIN, REC_UNDO]

/-- A log end that stops the loops without effect: nothing, or a record other
    than a commit marker that lost at least one byte. -/
def Torn (t : List UInt8) : Prop :=
  t = [] ∨ (∃ u, t = REC_BEGIN :: u ∧ u.length < 16) ∨
    (∃ u, t = REC_UNDO :: u ∧ u.length < 16 + PAGE_SIZE) ∨
    (∃ u, t = REC_PAGE :: u ∧ u.length < 16 + PAGE_SIZE)

theorem Torn.nil : Torn [] := .inl rfl

theorem take_pos_cons {b : UInt8} (hn : n ≠ 0) : (b :: bs).take n = b :: bs.take (n - 1) := by
  obtain ⟨m, rfl⟩ := Nat.exists_eq_succ_of_ne_zero hn
  rfl

/-- Cutting a record that is not a commit marker leaves a torn end. -/
theorem torn_take (hr : ∀ lsn, r ≠ .commit lsn) (hn : n < r.encode.length) :
    Torn (r.encode.take n) := by
  rcases Nat.eq_zero_or_pos n with rfl | hpos
  · exact .inl (by simp)
  have hn0 : n ≠ 0 := by omega
  cases r with
  | page lsn pid data =>
    refine .inr (.inr (.inr ⟨_, take_pos_cons hn0, ?_⟩))
    simp only [Rec.encode, length_cons, length_append, le_bytes_length, data.size] at hn
    simp only [length_take]
    omega
  | commit lsn => exact absurd rfl (hr lsn)
  | begin lsn base =>
    refine .inr (.inl ⟨_, take_pos_cons hn0, ?_⟩)
    simp only [Rec.encode, length_cons, length_append, le_bytes_length] at hn
    simp only [length_take]
    omega
  | undo lsn pid before =>
    refine .inr (.inr (.inl ⟨_, take_pos_cons hn0, ?_⟩))
    simp only [Rec.encode, length_cons, length_append, le_bytes_length, before.size] at hn
    simp only [length_take]
    omega

theorem recover_pass1_nil (fuel : Nat) (redo : List StagedPage) (loser : List UInt8) :
    recover_pass1 fuel [] redo loser = ([], loser) := by
  cases fuel <;> rfl

theorem undo_loop_nil (skip_pages : Bool) (fuel : Nat) (base : Option Nat) :
    undo_loop skip_pages fuel [] base = ([], base) := by
  cases fuel <;> rfl

theorem skip_bytes_past (h : bs.length ≤ n) : skip_bytes n bs = [] := by
  simp [skip_bytes, h]

theorem read_page_short (h : bs.length < PAGE_SIZE) : read_page bs = none := by
  simp [read_page, Nat.not_le.mpr h]

/-- Pass 1 ignores a torn end. -/
theorem recover_pass1_torn (ht : Torn t) (fuel : Nat)
    (redo : List StagedPage) (loser : List UInt8) :
    recover_pass1 fuel t redo loser = ([], loser) := by
  cases fuel with
  | zero => rfl
  | succ fuel =>
    rcases ht with rfl | ⟨u, rfl, hu⟩ | ⟨u, rfl, hu⟩ | ⟨u, rfl, hu⟩
    · rfl
    · have hskip : skip_bytes 8 (skip_bytes 8 u) = [] :=
        skip_bytes_past (by simp [skip_bytes]; omega)
      simp [recover_pass1, hskip, recover_pass1_nil]
    · have hskip : skip_bytes (8 + PAGE_SIZE) (skip_bytes 8 u) = [] :=
        skip_bytes_past (by simp [skip_bytes]; omega)
      simp [recover_pass1, hskip, recover_pass1_nil, REC_BEGIN, REC_UNDO]
    · simp only [recover_pass1, REC_BEGIN, REC_UNDO, REC_PAGE]
      have hlen : (skip_bytes 8 u).length < 8 + PAGE_SIZE := by simp [skip_bytes]; omega
      rcases lt_or_ge (skip_bytes 8 u).length 8 with h8 | h8
      · simp [read_exact_short h8]
      · have hrest : ((skip_bytes 8 u).drop 8).length < PAGE_SIZE := by simp; omega
        have hread : read_exact 8 (skip_bytes 8 u) =
            some ((skip_bytes 8 u).take 8, (skip_bytes 8 u).drop 8) := if_pos h8
        simp only [hread, read_page_short hrest, skip_bytes_past (le_of_lt hrest),
          recover_pass1_nil]
        simp

/-- The undo loop ignores a torn end. -/
theorem undo_loop_torn (ht : Torn t) (skip_pages : Bool) (fuel : Nat) (base : Option Nat) :
    undo_loop skip_pages fuel t base = ([], base) := by
  cases fuel with
  | zero => rfl
  | succ fuel =>
    rcases ht with rfl | ⟨u, rfl, hu⟩ | ⟨u, rfl, hu⟩ | ⟨u, rfl, hu⟩
    · rfl
    · have h8 : (skip_bytes 8 u).length < 8 := by simp [skip_bytes]; omega
      simp [undo_loop, read_exact_short h8]
    · simp only [undo_loop, REC_BEGIN, REC_UNDO]
      rcases lt_or_ge (skip_bytes 8 u).length 8 with h8 | h8
      · simp [read_exact_short h8]
      · have hpos : 0 < PAGE_SIZE := by decide
        have hrest : ((skip_bytes 8 u).drop 8).length < PAGE_SIZE := by
          simp [skip_bytes]; omega
        have hread : read_exact 8 (skip_bytes 8 u) =
            some ((skip_bytes 8 u).take 8, (skip_bytes 8 u).drop 8) := if_pos h8
        simp [hread, read_page_short hrest]
    · have hskip : skip_bytes (8 + PAGE_SIZE) (skip_bytes 8 u) = [] :=
        skip_bytes_past (by simp [skip_bytes]; omega)
      simp only [undo_loop, hskip, undo_loop_nil, REC_BEGIN, REC_UNDO, REC_PAGE]
      simp

/-- The type byte of a commit marker is enough: its torn `lsn` is skipped. -/
theorem recover_pass1_commit_byte (h : bs.length ≤ 8) (fuel : Nat) (redo : List StagedPage)
    (loser : List UInt8) : recover_pass1 (fuel + 1) (REC_COMMIT :: bs) redo loser = (redo, []) := by
  simp only [recover_pass1, skip_bytes_past h, recover_pass1_nil, REC_BEGIN, REC_UNDO, REC_PAGE,
    REC_COMMIT]
  simp

/-- Pass 1 over encoded records computes `scan`. -/
theorem recover_pass1_encode (hrs : ∀ r ∈ rs, r.fits) (s : Scan) (fuel : Nat)
    (hfuel : rs.length ≤ fuel) :
    ∃ ws redo', recover_pass1 fuel (encode_all rs ++ t) s.pending
        (encode_all s.loser ++ (encode_all rs ++ t)) =
        (ws ++ (recover_pass1 (fuel - rs.length) t redo' (encode_all (scan s rs).loser ++ t)).1,
          (recover_pass1 (fuel - rs.length) t redo' (encode_all (scan s rs).loser ++ t)).2) ∧
      redo' = (scan s rs).pending ∧ s.redone ++ ws = (scan s rs).redone := by
  induction rs generalizing s fuel with
  | nil => exact ⟨[], s.pending, by simp, rfl, by simp⟩
  | cons r rs ih =>
    obtain ⟨fuel, rfl⟩ : ∃ f, fuel = f + 1 := ⟨fuel - 1, by simp at hfuel; omega⟩
    have hr : r.fits := hrs r mem_cons_self
    have hfuel' : rs.length ≤ fuel := by simpa using hfuel
    have hsub : fuel + 1 - (r :: rs).length = fuel - rs.length := by simp
    rw [hsub, encode_all_cons, append_assoc, recover_pass1_rec hr, scan_cons]
    -- the part of the log read so far is kept in `loser`, except after a marker
    have hassoc : ∀ r' : Rec, encode_all s.loser ++ (r'.encode ++ (encode_all rs ++ t)) =
        encode_all (s.loser ++ [r']) ++ (encode_all rs ++ t) := by
      intro r'; simp
    cases r with
    | page lsn pid data =>
      obtain ⟨ws, redo', hrun, hredo, hws⟩ :=
        ih (fun r hr => hrs r (mem_cons_of_mem _ hr)) (s.next (.page lsn pid data)) fuel hfuel'
      refine ⟨ws, redo', ?_, hredo, hws⟩
      rw [hassoc]
      exact hrun
    | commit lsn =>
      obtain ⟨ws, redo', hrun, hredo, hws⟩ :=
        ih (fun r hr => hrs r (mem_cons_of_mem _ hr)) (s.next (.commit lsn)) fuel hfuel'
      refine ⟨s.pending ++ ws, redo', ?_, hredo, ?_⟩
      · simp only [Scan.next, encode_all_nil, nil_append] at hrun ⊢
        rw [hrun]
        simp
      · rw [← hws]; simp [Scan.next]
    | begin lsn base =>
      obtain ⟨ws, redo', hrun, hredo, hws⟩ :=
        ih (fun r hr => hrs r (mem_cons_of_mem _ hr)) (s.next (.begin lsn base)) fuel hfuel'
      refine ⟨ws, redo', ?_, hredo, hws⟩
      rw [hassoc]
      exact hrun
    | undo lsn pid before =>
      obtain ⟨ws, redo', hrun, hredo, hws⟩ :=
        ih (fun r hr => hrs r (mem_cons_of_mem _ hr)) (s.next (.undo lsn pid before)) fuel
          hfuel'
      refine ⟨ws, redo', ?_, hredo, hws⟩
      rw [hassoc]
      exact hrun

/-- The undo loop over encoded records without a marker, and without
    after-images where it does not skip them. -/
theorem undo_loop_encode {skip_pages : Bool} (hrs : ∀ r ∈ rs, r.fits)
    (hnc : ∀ lsn, Rec.commit lsn ∉ rs)
    (hnp : skip_pages = false → ∀ lsn pid data, Rec.page lsn pid data ∉ rs) (ht : Torn t)
    (base : Option Nat) (fuel : Nat) (hfuel : rs.length ≤ fuel) :
    undo_loop skip_pages fuel (encode_all rs ++ t) base = (undo_images rs, last_base base rs) := by
  induction rs generalizing base fuel with
  | nil => simpa [undo_images, last_base] using undo_loop_torn ht skip_pages fuel base
  | cons r rs ih =>
    obtain ⟨fuel, rfl⟩ : ∃ f, fuel = f + 1 := ⟨fuel - 1, by simp at hfuel; omega⟩
    have hr : r.fits := hrs r mem_cons_self
    have ih' := fun b => ih (fun r hr => hrs r (mem_cons_of_mem _ hr))
      (fun lsn h => hnc lsn (mem_cons_of_mem _ h))
      (fun hs lsn pid data h => hnp hs lsn pid data (mem_cons_of_mem _ h)) b fuel
      (by simpa using hfuel)
    rw [encode_all_cons, append_assoc, undo_loop_rec hr]
    cases r with
    | page lsn pid data =>
      cases skip_pages with
      | true => simp [undo_images, last_base, ih']
      | false => exact absurd mem_cons_self (hnp rfl lsn pid data)
    | commit lsn => exact absurd mem_cons_self (hnc lsn)
    | begin lsn b => simp [undo_images, last_base, ih']
    | undo lsn pid before => simp [undo_images, last_base, ih']

end MiniDb
