import Mathlib.Data.List.TakeWhile
import MiniDb.Storage.WalRecovery

/-! # Log-shipping replica (replica.c)

  A replica reads the log of its primary from the place after the last commit
  marker it has seen, and writes the after-images of a segment to its own data
  file when it meets the marker.  Segments whose marker has no larger `lsn`
  than the last one applied are skipped.

  `feed` is the same on a list of records: what has been written, in order,
  and what is pending.  `replica_apply_encode` connects the two. -/

namespace MiniDb

open Framework List

structure Replica where
  data : Pager
  /-- The place in the log after the last marker seen. -/
  apply_off : Nat
  applied_lsn : Nat
  commits_applied : Nat
  /-- The page writes so far, in order. -/
  writes : List StagedPage

def replica_open (file : List Page) : Replica := ⟨pager_open file, 0, 0, 0, []⟩

/-- The pages of a segment are written one by one; the first failure ends it. -/
def replica_write (r : Replica) (pend : List StagedPage) : Replica :=
  let done := pend.takeWhile fun u => u.1 < MAX_PAGES
  { r with
    data := { r.data with file := write_all Page.zero r.data.file done }
    writes := r.writes ++ done }

/-- The loop of `replica_apply` on what is left of the log.  `total` is the
    length of the log, `pend` the after-images read since the last marker. -/
def replica_loop (total : Nat) : Nat → List UInt8 → List StagedPage → Replica → Int → Replica × Int
  | 0, _, _, r, applied => (r, applied)
  | _ + 1, [], _, r, applied => (r, applied)
  | fuel + 1, type :: log, pend, r, applied =>
    match read_exact 8 log with
    | none => (r, applied)
    | some (lsn, log) =>
      if type = REC_PAGE then
        match read_exact 8 log with
        | none => (r, applied)
        | some (pid, log) =>
          if pend.length ≥ WAL_MAX_STAGED then (r, -1)
          else
            match read_page log with
            | none => (r, applied)
            | some (data, log) => replica_loop total fuel log (pend ++ [(le_nat pid, data)]) r applied
      else if type = REC_BEGIN then
        match read_exact 8 log with
        | none => (r, applied)
        | some (_, log) => replica_loop total fuel log pend r applied
      else if type = REC_UNDO then
        match read_exact 8 log with
        | none => (r, applied)
        | some (_, log) =>
          match read_page log with
          | none => (r, applied)
          | some (_, log) => replica_loop total fuel log pend r applied
      else if type = REC_COMMIT then
        if r.applied_lsn < le_nat lsn then
          if write_rc pend = 0 then
            replica_loop total fuel log []
              { replica_write r pend with
                applied_lsn := le_nat lsn
                commits_applied := r.commits_applied + 1
                apply_off := total - log.length } (applied + 1)
          else (replica_write r pend, -1)
        else replica_loop total fuel log [] { r with apply_off := total - log.length } applied
      else (r, applied)

/-- A log shorter than the place reached was cut: it is read from its start. -/
def replica_apply (r : Replica) (log : List UInt8) : Replica × Int :=
  let off := if log.length < r.apply_off then 0 else r.apply_off
  replica_loop log.length log.length (log.drop off) [] { r with apply_off := off } 0

/-! ### The same on records -/

/-- What a reader of records has written and what waits for its marker. -/
structure Feed where
  lsn : Nat
  pend : List StagedPage
  out : List StagedPage

def Feed.init : Feed := ⟨0, [], []⟩

def Feed.next (f : Feed) : Rec → Feed
  | .page _ pid data => { f with pend := f.pend ++ [(pid, data)] }
  | .commit lsn =>
    if f.lsn < lsn then ⟨lsn, [], f.out ++ f.pend⟩ else { f with pend := [] }
  | .begin _ _ => f
  | .undo _ _ _ => f

def feed (f : Feed) (rs : List Rec) : Feed := rs.foldl Feed.next f

variable (f : Feed)

@[simp] theorem feed_nil : feed f [] = f := rfl

@[simp] theorem feed_cons (r : Rec) (rs : List Rec) :
    feed f (r :: rs) = feed (f.next r) rs := rfl

theorem feed_append (rs rs' : List Rec) : feed f (rs ++ rs') = feed (feed f rs) rs' := by
  simp [feed]

theorem Feed.next_out (r : Rec) : f.out <+: (f.next r).out := by
  cases r with
  | commit lsn =>
    rw [Feed.next]
    split
    · exact prefix_append _ _
    · exact prefix_refl _
  | _ => exact prefix_refl _

/-- What was written stays written. -/
theorem feed_out (rs : List Rec) : f.out <+: (feed f rs).out := by
  induction rs generalizing f with
  | nil => exact prefix_refl _
  | cons r rs ih => exact (f.next_out r).trans (ih _)

/-- The numbers of a record fit the 64-bit fields of the format. -/
def Rec.lsn : Rec → Nat
  | .page lsn _ _ => lsn
  | .commit lsn => lsn
  | .begin lsn _ => lsn
  | .undo lsn _ _ => lsn

/-- A record a reader gets back as it was written. -/
def Rec.sound (r : Rec) : Prop := r.fits ∧ r.lsn < 2 ^ 64

/-- No segment is longer than a transaction may stage. -/
def Bounded (f : Feed) (rs : List Rec) : Prop :=
  ∀ rs', rs' <+: rs → (feed f rs').pend.length ≤ WAL_MAX_STAGED

variable {r r' : Replica} {A B Q rs : List Rec} {t : List UInt8} {pend : List StagedPage}
  {total : Nat} {f : Feed} {rs' : List Rec} {A' : List Rec}

theorem Bounded.next {r : Rec} (h : Bounded f (r :: rs)) : Bounded (f.next r) rs := by
  intro rs' hrs
  exact h (r :: rs') (cons_prefix_cons.2 ⟨rfl, hrs⟩)

theorem Bounded.isPrefix (h : Bounded f rs) (hrs : rs' <+: rs) :
    Bounded f rs' := fun _ hq => h _ (hq.trans hrs)

theorem Bounded.append (h : Bounded f rs) (h' : Bounded (feed f rs) rs')
    : Bounded f (rs ++ rs') := by
  intro q hq
  rcases prefix_or_prefix_of_prefix hq (prefix_append rs rs') with hq' | ⟨q', rfl⟩
  · exact h q hq'
  · rw [feed_append]
    exact h' q' ((prefix_append_right_inj rs).1 hq)

/-! ### Reading an encoded log -/

/-- The end of a log that has not arrived in full: a record without its last
    bytes. -/
def Unfinished (t : List UInt8) : Prop := ∃ r : Rec, t <+: r.encode ∧ t.length < r.encode.length

theorem Unfinished.nil : Unfinished [] :=
  ⟨.commit 0, nil_prefix, by simp [Rec.encode]⟩

theorem read_exact_rest {n : Nat} {bs xs ys : List UInt8} (h : read_exact n bs = some (xs, ys)) :
    ys.length + n = bs.length := by
  rw [read_exact] at h
  split at h
  · cases h
    simp only [length_drop]
    omega
  · cases h

/-- An unfinished record ends the loop without effect. -/
theorem replica_loop_unfinished (ht : Unfinished t) (total fuel : Nat) (pend : List StagedPage)
    (r : Replica) (applied : Int) : (replica_loop total fuel t pend r applied).1 = r := by
  obtain ⟨x, hpre, hlen⟩ := ht
  cases fuel with
  | zero => rfl
  | succ fuel =>
    cases t with
    | nil => rfl
    | cons type t =>
      rw [replica_loop]
      -- the lsn may be short, else what follows it is
      rcases h8 : read_exact 8 t with _ | ⟨lsn, log⟩
      · rfl
      have hlog := read_exact_rest h8
      have hread : ∀ {n : Nat}, log.length < n → read_exact n log = none := read_exact_short
      cases x with
      | commit l =>
        have htype : type = REC_COMMIT := (cons_prefix_cons.1 hpre).1
        simp [Rec.encode] at hlen
        omega
      | begin l base =>
        have htype : type = REC_BEGIN := (cons_prefix_cons.1 hpre).1
        simp [Rec.encode] at hlen
        simp [htype, REC_BEGIN, REC_PAGE, hread (by omega : log.length < 8)]
      | page l pid data =>
        have htype : type = REC_PAGE := (cons_prefix_cons.1 hpre).1
        simp [Rec.encode, data.size] at hlen
        rcases h8' : read_exact 8 log with _ | ⟨id, log'⟩
        · simp [htype, h8']
        · have hlog' := read_exact_rest h8'
          simp only [htype, h8', if_true, read_page_short (by omega : log'.length < PAGE_SIZE)]
          split <;> rfl
      | undo l pid before =>
        have htype : type = REC_UNDO := (cons_prefix_cons.1 hpre).1
        simp [Rec.encode, before.size] at hlen
        rcases h8' : read_exact 8 log with _ | ⟨id, log'⟩
        · simp [htype, h8', REC_UNDO, REC_PAGE, REC_BEGIN]
        · have hlog' := read_exact_rest h8'
          simp [htype, h8', REC_UNDO, REC_PAGE, REC_BEGIN,
            read_page_short (by omega : log'.length < PAGE_SIZE)]

/-- One record of the loop. -/
theorem replica_loop_rec {x : Rec} (hx : x.sound) (total fuel : Nat) (rest : List UInt8)
    (pend : List StagedPage) (r : Replica) (applied : Int) :
    replica_loop total (fuel + 1) (x.encode ++ rest) pend r applied =
      match x with
      | .page _ pid data =>
        if pend.length ≥ WAL_MAX_STAGED then (r, -1)
        else replica_loop total fuel rest (pend ++ [(pid, data)]) r applied
      | .begin _ _ => replica_loop total fuel rest pend r applied
      | .undo _ _ _ => replica_loop total fuel rest pend r applied
      | .commit lsn =>
        if r.applied_lsn < lsn then
          if write_rc pend = 0 then
            replica_loop total fuel rest []
              { replica_write r pend with
                applied_lsn := lsn
                commits_applied := r.commits_applied + 1
                apply_off := total - rest.length } (applied + 1)
          else (replica_write r pend, -1)
        else replica_loop total fuel rest [] { r with apply_off := total - rest.length } applied := by
  cases x with
  | page lsn pid data =>
    have hpid : le_nat (le_bytes 8 pid) = pid := le_nat_pid (le_of_lt hx.1)
    simp [Rec.encode, replica_loop, read_exact_append (le_bytes_length 8 lsn),
      read_exact_append (le_bytes_length 8 pid), read_page_append, hpid]
  | commit lsn =>
    have hlsn : le_nat (le_bytes 8 lsn) = lsn := le_nat_le_bytes hx.2
    simp [Rec.encode, replica_loop, read_exact_append (le_bytes_length 8 lsn), hlsn,
      REC_BEGIN, REC_UNDO, REC_PAGE, REC_COMMIT]
  | begin lsn b =>
    simp [Rec.encode, replica_loop, read_exact_append (le_bytes_length 8 lsn),
      read_exact_append (le_bytes_length 8 b), REC_BEGIN, REC_PAGE]
  | undo lsn pid before =>
    simp [Rec.encode, replica_loop, read_exact_append (le_bytes_length 8 lsn),
      read_exact_append (le_bytes_length 8 pid), read_page_append, REC_BEGIN, REC_UNDO, REC_PAGE]

/-- Without a marker nothing is written. -/
theorem feed_no_commit (h : ∀ lsn, Rec.commit lsn ∉ rs) (f : Feed) :
    (feed f rs).lsn = f.lsn ∧ (feed f rs).out = f.out := by
  induction rs generalizing f with
  | nil => exact ⟨rfl, rfl⟩
  | cons r rs ih =>
    have hrest := ih (fun lsn hmem => h lsn (mem_cons_of_mem _ hmem)) (f.next r)
    cases r with
    | commit lsn => exact absurd mem_cons_self (h lsn)
    | _ => exact hrest

/-- The replica has taken in the records `A`, up to a marker, from the data
    file `file`. -/
structure CaughtUp (file : List Page) (r : Replica) (A : List Rec) : Prop where
  off : r.apply_off = (encode_all A).length
  state : feed .init A = ⟨r.applied_lsn, [], r.writes⟩
  data : r.data.file = write_all Page.zero file r.writes

/-- What the replica knows, and what waits, as a feed. -/
def Replica.feed (r : Replica) (pend : List StagedPage) : Feed := ⟨r.applied_lsn, pend, r.writes⟩

theorem replica_write_ok (r : Replica) (h : ∀ u ∈ pend, u.1 < MAX_PAGES) :
    replica_write r pend =
      { r with
        data := { r.data with file := write_all Page.zero r.data.file pend }
        writes := r.writes ++ pend } := by
  have hall : pend.takeWhile (fun u => decide (u.1 < MAX_PAGES)) = pend := by
    rw [takeWhile_eq_self_iff]
    exact fun u hu => by simpa using h u hu
  simp only [replica_write, hall]

/-- What the loop leaves after the records `rs` and an unfinished one: it has
    taken in `A`, up to the last marker, and stands there. -/
structure TakenIn (total : Nat) (t : List UInt8) (r : Replica) (pend : List StagedPage)
    (rs : List Rec) (r' : Replica) (A B : List Rec) : Prop where
  split : rs = A ++ B
  tail : ∀ lsn, Rec.commit lsn ∉ B
  last : A ≠ [] → ∃ A' lsn, A = A' ++ [.commit lsn]
  lsn : r'.applied_lsn = (MiniDb.feed (r.feed pend) rs).lsn
  writes : r'.writes = (MiniDb.feed (r.feed pend) rs).out
  stay : A = [] → r'.apply_off = r.apply_off
  move : A ≠ [] → (MiniDb.feed (r.feed pend) A).pend = [] ∧
    r'.apply_off = total - (encode_all B ++ t).length
  data : ∀ file, r.data.file = write_all Page.zero file r.writes →
    r'.data.file = write_all Page.zero file r'.writes

/-- A record without effect on the replica, at the front of a run of the loop. -/
theorem TakenIn.skip {pend' : List StagedPage} {x : Rec}
    (h : TakenIn total t r pend' rs r' A B) (hx : (r.feed pend).next x = r.feed pend')
    (hc : ∀ lsn, x ≠ .commit lsn) : ∃ A' B', TakenIn total t r pend (x :: rs) r' A' B' := by
  by_cases hA : A = []
  · subst hA
    have hB := h.split
    rw [nil_append] at hB
    subst hB
    refine ⟨[], x :: rs, rfl, ?_, fun hne => absurd rfl hne, ?_, ?_, h.stay,
      fun hne => absurd rfl hne, h.data⟩
    · intro lsn hmem
      rcases mem_cons.1 hmem with heq | hmem
      · exact hc lsn heq.symm
      · exact h.tail lsn hmem
    · rw [feed_cons, hx]
      exact h.lsn
    · rw [feed_cons, hx]
      exact h.writes
  · refine ⟨x :: A, B, by rw [h.split]; rfl, h.tail, fun _ => ?_, ?_, ?_, nofun, fun _ => ?_,
      h.data⟩
    · obtain ⟨A', lsn, heq⟩ := h.last hA
      exact ⟨x :: A', lsn, by rw [heq]; rfl⟩
    · rw [feed_cons, hx]
      exact h.lsn
    · rw [feed_cons, hx]
      exact h.writes
    · rw [feed_cons, hx]
      exact h.move hA

/-- A marker at the front of a run of the loop. -/
theorem TakenIn.marker {r₁ : Replica} {lsn : Nat}
    (h : TakenIn total t r₁ [] rs r' A B) (hnext : (r.feed pend).next (.commit lsn) = r₁.feed [])
    (hoff : r₁.apply_off = total - (encode_all rs ++ t).length)
    (hdata : ∀ file, r.data.file = write_all Page.zero file r.writes →
      r₁.data.file = write_all Page.zero file r₁.writes) :
    TakenIn total t r pend (.commit lsn :: rs) r' (.commit lsn :: A) B where
  split := by rw [h.split]; rfl
  tail := h.tail
  last _ := by
    by_cases hA : A = []
    · exact ⟨[], lsn, by rw [hA]; rfl⟩
    · obtain ⟨A', lsn', heq⟩ := h.last hA
      exact ⟨.commit lsn :: A', lsn', by rw [heq]; rfl⟩
  lsn := by
    rw [feed_cons, hnext]
    exact h.lsn
  writes := by
    rw [feed_cons, hnext]
    exact h.writes
  stay := nofun
  move _ := by
    rw [feed_cons, hnext]
    by_cases hA : A = []
    · subst hA
      have hB := h.split
      rw [nil_append] at hB
      exact ⟨rfl, by rw [h.stay rfl, hoff, hB]⟩
    · exact h.move hA
  data file hfile := h.data file (hdata file hfile)

theorem write_rc_ok {us : List StagedPage} (h : ∀ u ∈ us, u.1 < MAX_PAGES) : write_rc us = 0 := by
  simpa [write_rc] using h

/-- The loop on encoded records does what `feed` says. -/
theorem replica_loop_encode (hs : ∀ x ∈ rs, x.sound) (ht : Unfinished t) (total fuel : Nat)
    (hfuel : rs.length ≤ fuel) (pend : List StagedPage) (hpend : ∀ u ∈ pend, u.1 < MAX_PAGES)
    (r : Replica) (hb : Bounded (r.feed pend) rs) (applied : Int) :
    ∃ A B, TakenIn total t r pend rs
      (replica_loop total fuel (encode_all rs ++ t) pend r applied).1 A B := by
  induction rs generalizing fuel pend r applied with
  | nil =>
    rw [encode_all_nil, nil_append, replica_loop_unfinished ht]
    exact ⟨[], [], rfl, by simp, fun h => absurd rfl h, rfl, rfl, fun _ => rfl,
      fun h => absurd rfl h, fun _ h => h⟩
  | cons x rs ih =>
    obtain ⟨fuel, rfl⟩ : ∃ f, fuel = f + 1 := ⟨fuel - 1, by simp at hfuel; omega⟩
    have hrs : ∀ x ∈ rs, x.sound := fun x hx => hs x (mem_cons_of_mem _ hx)
    have hlen : rs.length ≤ fuel := by simpa using hfuel
    have hx := hs x mem_cons_self
    rw [encode_all_cons, append_assoc, replica_loop_rec hx]
    cases x with
    | page lsn pid data =>
      -- the segment is not longer than what can be staged
      have hroom : pend.length + 1 ≤ WAL_MAX_STAGED := by
        have := hb [.page lsn pid data] (cons_prefix_cons.2 ⟨rfl, nil_prefix⟩)
        simpa [Replica.feed, Feed.next] using this
      have hpend' : ∀ u ∈ pend ++ [(pid, data)], u.1 < MAX_PAGES := by
        exact forall_mem_append.mpr ⟨hpend, forall_mem_singleton.mpr hx.1⟩
      obtain ⟨A, B, h⟩ := ih hrs fuel hlen (pend ++ [(pid, data)]) hpend' r hb.next applied
      simp only [if_neg (by omega : ¬ pend.length ≥ WAL_MAX_STAGED)]
      exact h.skip rfl nofun
    | begin lsn base =>
      obtain ⟨A, B, h⟩ := ih hrs fuel hlen pend hpend r hb.next applied
      exact h.skip rfl nofun
    | undo lsn pid before =>
      obtain ⟨A, B, h⟩ := ih hrs fuel hlen pend hpend r hb.next applied
      exact h.skip rfl nofun
    | commit lsn =>
      have hb' := hb.next
      dsimp only
      split
      case isTrue hlt =>
        -- a new segment: its images are written
        rw [if_pos (write_rc_ok hpend), replica_write_ok r hpend]
        have hnext : (r.feed pend).next (.commit lsn) = ⟨lsn, [], r.writes ++ pend⟩ := if_pos hlt
        rw [hnext] at hb'
        obtain ⟨A, B, h⟩ := ih hrs fuel hlen [] (by simp)
          { r with
            data := { r.data with file := write_all Page.zero r.data.file pend }
            writes := r.writes ++ pend
            applied_lsn := lsn
            commits_applied := r.commits_applied + 1
            apply_off := total - (encode_all rs ++ t).length } hb' (applied + 1)
        refine ⟨_, _, h.marker hnext rfl fun file hfile => ?_⟩
        simp [write_all_append, hfile]
      case isFalse hge =>
        -- an old segment, seen again
        have hnext : (r.feed pend).next (.commit lsn) = ⟨r.applied_lsn, [], r.writes⟩ := if_neg hge
        rw [hnext] at hb'
        obtain ⟨A, B, h⟩ := ih hrs fuel hlen [] (by simp)
          { r with apply_off := total - (encode_all rs ++ t).length } hb' applied
        exact ⟨_, _, h.marker hnext rfl fun _ hfile => hfile⟩

/-- One call of `replica_apply` on a log of records, from the place after `A`. -/
theorem replica_apply_from (ht : Unfinished t)
    (hoff : (if (encode_all (A ++ Q) ++ t).length < r.apply_off then 0 else r.apply_off) =
      (encode_all A).length) (hs : ∀ x ∈ Q, x.sound) (hb : Bounded (r.feed []) Q) :
    ∃ A' B, TakenIn (encode_all (A ++ Q) ++ t).length t
      { r with apply_off := (encode_all A).length } [] Q
      (replica_apply r (encode_all (A ++ Q) ++ t)).1 A' B := by
  have hdrop : (encode_all (A ++ Q) ++ t).drop (encode_all A).length = encode_all Q ++ t := by
    rw [encode_all_append, append_assoc, drop_left]
  have hlen : Q.length ≤ (encode_all (A ++ Q) ++ t).length := by
    have := length_le_encode_all Q
    simp
    omega
  rw [replica_apply]
  simp only [hoff, hdrop]
  exact replica_loop_encode hs ht _ _ hlen [] (by simp)
    { r with apply_off := (encode_all A).length } hb 0

/-- Where the replica stands after the call. -/
theorem TakenIn.off (h : TakenIn (encode_all (A ++ Q) ++ t).length t r [] Q r' A' B)
    (hoff : r.apply_off = (encode_all A).length) :
    r'.apply_off = (encode_all (A ++ A')).length := by
  by_cases hA : A' = []
  · rw [h.stay hA, hA, append_nil, hoff]
  · rw [(h.move hA).2, h.split]
    simp
    omega

/-- What it has taken in. -/
theorem TakenIn.state (h : TakenIn total t r [] Q r' A' B) :
    feed (r.feed []) A' = r'.feed [] := by
  have hpend : (MiniDb.feed (r.feed []) A').pend = [] := by
    by_cases hA : A' = []
    · rw [hA]
      rfl
    · exact (h.move hA).1
  obtain ⟨hlsn, hwrites⟩ := feed_no_commit h.tail (feed (r.feed []) A')
  rw [← feed_append, ← h.split] at hlsn hwrites
  change feed (r.feed []) A' = ⟨r'.applied_lsn, [], r'.writes⟩
  rw [h.lsn, h.writes, hlsn, hwrites]
  exact congrArg (fun p => Feed.mk (feed (r.feed []) A').lsn p (feed (r.feed []) A').out) hpend

/-- One call of `replica_apply` takes in everything up to the last marker. -/
theorem CaughtUp.apply {file : List Page} (h : CaughtUp file r A) (hs : ∀ x ∈ A ++ Q, x.sound)
    (hb : Bounded .init (A ++ Q)) (ht : Unfinished t) :
    ∃ A' B, A ++ Q = A' ++ B ∧ A <+: A' ∧ (∀ lsn, Rec.commit lsn ∉ B) ∧
      CaughtUp file (replica_apply r (encode_all (A ++ Q) ++ t)).1 A' ∧
      (replica_apply r (encode_all (A ++ Q) ++ t)).1.writes = (feed .init (A ++ Q)).out := by
  have hoff := h.off
  have hfeed : feed .init A = r.feed [] := h.state
  have hbound : Bounded (r.feed []) Q := by
    intro q hq
    have := hb (A ++ q) ((prefix_append_right_inj A).2 hq)
    rwa [feed_append, hfeed] at this
  -- the log still reaches the place
  obtain ⟨A₂, B, hap⟩ := replica_apply_from (A := A) ht
    (by rw [if_neg (by simp [hoff]), hoff]) (fun x hx => hs x (mem_append_right _ hx)) hbound
  refine ⟨A ++ A₂, B, by rw [append_assoc, ← hap.split], prefix_append _ _, hap.tail,
    ⟨hap.off rfl, ?_, hap.data file h.data⟩, ?_⟩
  · rw [feed_append, hfeed]
    exact hap.state
  · rw [feed_append, hfeed]
    exact hap.writes

theorem CaughtUp.opened (file : List Page) : CaughtUp file (replica_open file) [] :=
  ⟨rfl, rfl, rfl⟩

end MiniDb
