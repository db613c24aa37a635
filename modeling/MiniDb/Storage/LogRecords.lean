import Mathlib.Data.List.Induction
import MiniDb.Storage.Replica

/-! # The log of a running primary

  The log of an open `Wal` is a list of whole records: segments that end in a
  commit marker, then the steal records of the open transaction.  Sequence
  numbers go upwards.  `LogInv` says so and is kept by every call; `segs` are
  the segments, each with the `lsn` of its marker and its after-images.

  The checkpoint at the end of `wal_commit` is a step of its own here
  (`wal_commit_split`), since a reader of the log may run before it. -/

namespace MiniDb

open Framework List

/-! ### Segments -/

structure Segs where
  done : List (Nat × List StagedPage)
  pend : List StagedPage

def Segs.next (s : Segs) : Rec → Segs
  | .page _ pid data => { s with pend := s.pend ++ [(pid, data)] }
  | .commit lsn => ⟨s.done ++ [(lsn, s.pend)], []⟩
  | .begin _ _ => s
  | .undo _ _ _ => s

/-- The closed segments of some records, and what follows the last marker. -/
def segs (rs : List Rec) : Segs := rs.foldl Segs.next ⟨[], []⟩

@[simp] theorem segs_nil : segs [] = ⟨[], []⟩ := rfl

variable (rs : List Rec)

theorem segs_snoc (r : Rec) : segs (rs ++ [r]) = (segs rs).next r := by
  simp [segs]

theorem segs_steals {cur : List Rec} (h : ∀ r ∈ cur, r.is_steal) :
    segs (rs ++ cur) = segs rs := by
  induction cur using List.reverseRecOn with
  | nil => simp
  | append_singleton cur r ih =>
    rw [← append_assoc, segs_snoc, ih fun x hx => h x (mem_append_left _ hx)]
    have := h r (by simp)
    cases r <;> simp_all [Segs.next, Rec.is_steal]

/-- The after-images of one commit. -/
theorem segs_page_recs (lsn : Nat) (staged : List StagedPage) :
    segs (rs ++ page_recs lsn staged) = ⟨(segs rs).done, (segs rs).pend ++ staged⟩ := by
  induction staged generalizing rs lsn with
  | nil => simp [page_recs]
  | cons u staged ih =>
    rw [page_recs, show rs ++ Rec.page lsn u.1 u.2 :: page_recs (lsn + 1) staged =
      (rs ++ [.page lsn u.1 u.2]) ++ page_recs (lsn + 1) staged by simp, ih, segs_snoc]
    simp [Segs.next]

theorem segs_done_isPrefix {rs rs' : List Rec} (h : rs <+: rs') :
    (segs rs).done <+: (segs rs').done := by
  obtain ⟨q, rfl⟩ := h
  induction q using List.reverseRecOn with
  | nil => simp
  | append_singleton q r ih =>
    rw [← append_assoc, segs_snoc]
    refine ih.trans ?_
    cases r with
    | commit lsn => exact prefix_append _ _
    | _ => exact prefix_refl _

theorem segs_no_commit {q : List Rec} (h : ∀ lsn, Rec.commit lsn ∉ q) :
    (segs (rs ++ q)).done = (segs rs).done := by
  induction q using List.reverseRecOn with
  | nil => simp
  | append_singleton q r ih =>
    have ih := ih fun lsn hmem => h lsn (mem_append_left _ hmem)
    rw [← append_assoc, segs_snoc]
    cases r with
    | commit lsn => exact absurd (by simp) (h lsn)
    | _ => exact ih

/-! ### Commit and checkpoint -/

/-- `wal_commit` up to its checkpoint. -/
def wal_commit_open (w : Wal) : Wal :=
  { w.io (commit_log_io w ++ write_ops w.staged) with
    staged := []
    stole := false
    spilled := []
    txn_active := false
    next_lsn := w.next_lsn + w.staged.length + 1
    flushed_lsn := w.next_lsn + w.staged.length }

def checkpoint_due (w : Wal) : Bool := w.log.length > WAL_CHECKPOINT_BYTES

def wal_checkpoint (w : Wal) : Wal := w.io [.fsync_data, .log_truncate 0]

theorem Disk.run_write_ops_log (d : Disk) (us : List StagedPage) :
    (d.run (write_ops us)).log = d.log := by
  induction us generalizing d with
  | nil => rfl
  | cons u us ih =>
    change ((d.apply (.data_write u.1 u.2)).run (write_ops us)).log = d.log
    rw [ih, Disk.apply]
    split <;> rfl

/-- A commit is its first part and, when the log has outgrown its limit, the
    checkpoint. -/
theorem wal_commit_split {w : Wal} (h : write_rc w.staged = 0) :
    wal_commit w =
      (if checkpoint_due (wal_commit_open w) then wal_checkpoint (wal_commit_open w)
        else wal_commit_open w, 0) := by
  have hlog : (wal_commit_open w).log = (w.disk.run (commit_log_io w)).log := by
    change (w.disk.run (commit_log_io w ++ write_ops w.staged)).log = _
    rw [Disk.run_append, Disk.run_write_ops_log]
  rw [wal_commit, if_pos h, wal_commit_io, checkpoint_io, checkpoint_due, hlog]
  by_cases hdue : (w.disk.run (commit_log_io w)).log.length > WAL_CHECKPOINT_BYTES
  · rw [if_pos hdue, if_pos (decide_eq_true hdue)]
    simp only [wal_checkpoint, wal_commit_open, Wal.io, Wal.disk, Disk.run_append]
  · rw [if_neg hdue, if_neg (by simpa using hdue), append_nil]
    rfl

/-- The records of a commit. -/
def commit_recs (w : Wal) : List Rec :=
  page_recs w.next_lsn w.staged ++ [.commit (w.next_lsn + w.staged.length)]

theorem wal_commit_open_log (w : Wal) :
    (wal_commit_open w).log = w.log ++ encode_all (commit_recs w) := by
  change (w.disk.run (commit_log_io w ++ write_ops w.staged)).log = _
  rw [Disk.run_append, Disk.run_write_ops_log, commit_log_io, Disk.run_append, run_log_recs,
    commit_recs, encode_all_append]
  simp [Disk.apply, log_rec, Wal.disk]

/-- The session after the first part of a commit. -/
def Session.committed_open (s : Session) : Session :=
  { wal := wal_commit_open s.wal, in_txn := false, committed := (wal_commit_open s.wal).data.pages }

/-! ### The invariant -/

structure LogInv (s : Session) (hist cur : List Rec) : Prop where
  log : s.wal.log = encode_all (hist ++ cur)
  sound : ∀ r ∈ hist ++ cur, r.sound
  below : ∀ r ∈ hist ++ cur, r.lsn < s.wal.next_lsn
  steals : ∀ r ∈ cur, r.is_steal
  closed : (segs hist).pend = []
  room : ∀ rs, rs <+: hist → (segs rs).pend.length ≤ WAL_MAX_STAGED
  idle : s.in_txn = false → cur = []
  start : s.in_txn = true → s.wal.txn_log_start = (encode_all hist).length
  unbegun : s.in_txn = true → s.wal.stole = false → cur = []
  pages : s.wal.data.num_pages ≤ MAX_PAGES
  base : s.wal.base_pages ≤ MAX_PAGES
  staged_room : s.wal.staged.length ≤ WAL_MAX_STAGED
  staged_lt : ∀ u ∈ s.wal.staged, u.1 < MAX_PAGES

namespace LogInv

variable {s s' : Session} {hist cur : List Rec}

theorem opened {d : Disk} (hmax : d.data.length ≤ MAX_PAGES) : LogInv (session_open d) [] [] where
  log := wal_open_log d
  sound := by simp
  below := by simp
  steals := by simp
  closed := rfl
  room rs hrs := by simp [prefix_nil.1 hrs]
  idle _ := rfl
  start h := by cases h
  unbegun _ _ := rfl
  pages := (wal_open_pages d).trans (wal_open_bound hmax)
  base := Nat.zero_le _
  staged_room := Nat.zero_le _
  staged_lt := by
    intro u hu
    cases hu

variable (h : LogInv s hist cur) {page_id : Nat} {rs : List Rec} {buf : Page} {lsn : Nat}

include h

theorem alloc (hs : s.step .alloc = some s') : LogInv s' hist cur := by
  obtain ⟨hlt, rfl⟩ := step_alloc_eq hs
  exact { h with pages := hlt }

theorem begin (hs : s.step .begin = some s') : LogInv s' hist cur := by
  obtain ⟨hidle, rfl⟩ := step_begin_eq hs
  obtain rfl := h.idle hidle
  exact { h with
    idle := by simp
    start := fun _ => by simp [wal_begin, h.log]
    unbegun := fun _ _ => rfl
    base := h.pages
    staged_room := Nat.zero_le _
    staged_lt := by simp [wal_begin] }

theorem stage (hs : s.step (.stage page_id buf) = some s') :
    LogInv s' hist cur := by
  obtain ⟨⟨hin, hp⟩, hrc, rfl⟩ := step_take_eq hs
  obtain ⟨staged, heq, hcase⟩ := wal_stage_staged hrc
  rw [heq]
  exact { h with
    staged_room := MiniDb.staged_room hcase h.staged_room
    staged_lt := staged_ids (hcase.imp_right And.left) h.staged_lt (hp.trans_le h.pages) }

omit h in
/-- The records of a steal: their numbers are the next ones. -/
theorem steal_recs_ok {w : Wal} {undo : List Rec} (hbase : w.base_pages ≤ MAX_PAGES)
    (hundo : steal_undo w (w.next_lsn + (steal_begin w).length) page_id = some undo) :
    (∀ r ∈ steal_begin w ++ undo, r.is_steal ∧ r.fits ∧
      r.lsn < w.next_lsn + (steal_begin w).length + undo.length) ∧
      (steal_begin w).length + undo.length ≤ 2 := by
  have hbegin : steal_begin w = [] ∨ steal_begin w = [.begin w.next_lsn w.base_pages] := by
    rw [steal_begin]
    split
    · exact .inl rfl
    · exact .inr rfl
  have hcase : undo = [] ∨ page_id < MAX_PAGES ∧ ∃ before,
      undo = [.undo (w.next_lsn + (steal_begin w).length) page_id before] := by
    rw [steal_undo] at hundo
    split_ifs at hundo with h₁ h₂
    · exact .inl (Option.some.inj hundo).symm
    · obtain ⟨before, -, hb⟩ := Option.map_eq_some_iff.1 hundo
      exact .inr ⟨h₂.trans_le hbase, before, hb.symm⟩
    · exact .inl (Option.some.inj hundo).symm
  rcases hcase with rfl | ⟨hid, before, rfl⟩
  · rcases hbegin with hb | hb <;> simp [hb, Rec.is_steal, Rec.fits, Rec.lsn, hbase]
  · rcases hbegin with hb | hb
    · simp [hb, Rec.is_steal, Rec.fits, Rec.lsn, hid]
    · simp [hb, Rec.is_steal, Rec.fits, Rec.lsn, hbase, hid, Nat.add_assoc]

theorem steal (hs : s.step (.steal page_id buf) = some s')
    (hlsn : s.wal.next_lsn + 2 ≤ 2 ^ 64) :
    ∃ recs, LogInv s' hist (cur ++ recs) ∧ s.in_txn = true ∧ s'.in_txn = true := by
  obtain ⟨⟨hin, hp⟩, hrc, rfl⟩ := step_take_eq hs
  rcases hundo : steal_undo s.wal (s.wal.next_lsn + (steal_begin s.wal).length) page_id with _ | undo
  · simp [wal_steal, hundo] at hrc
  obtain ⟨hrecs, htwo⟩ := steal_recs_ok h.base hundo
  have hlog : (s.wal.io (wal_steal_io (steal_begin s.wal ++ undo) page_id buf)).log =
      s.wal.log ++ encode_all (steal_begin s.wal ++ undo) := by
    change (s.wal.disk.run (wal_steal_io (steal_begin s.wal ++ undo) page_id buf)).log = _
    rw [wal_steal_io, Disk.run_append, run_log_recs]
    simp only [Disk.run_cons, Disk.run_nil, Disk.apply]
    split <;> rfl
  simp only [wal_steal, hundo]
  refine ⟨steal_begin s.wal ++ undo, ?_, hin, hin⟩
  have hmem : ∀ r ∈ hist ++ (cur ++ (steal_begin s.wal ++ undo)),
      r ∈ hist ++ cur ∨ r ∈ steal_begin s.wal ++ undo := by
    intro r hr
    rw [← append_assoc] at hr
    exact mem_append.1 hr
  exact { h with
    log := by
      rw [← append_assoc, encode_all_append, ← h.log]
      exact hlog
    sound := fun r hr => (hmem r hr).elim (h.sound r) fun hr =>
      ⟨(hrecs r hr).2.1, by have := (hrecs r hr).2.2; omega⟩
    below := fun r hr => (hmem r hr).elim
      (fun hr => by have := h.below r hr; dsimp only; omega) fun hr => (hrecs r hr).2.2
    steals := fun r hr => (mem_append.1 hr).elim (h.steals r) fun hr => (hrecs r hr).1
    idle := fun hidle => by simp [hin] at hidle
    start := h.start
    unbegun := by simp
    pages := h.pages }

/-- A rollback cuts its own records off the log. -/
theorem undo (hs : s.step .undo = some s') :
    LogInv s' hist [] ∧ s.in_txn = true ∧ s'.in_txn = false ∧ s'.wal.stole = false := by
  obtain ⟨hin, rfl⟩ := step_undo_eq hs
  rw [wal_undo]
  split
  case isFalse hstole =>
    have hcur := h.unbegun hin (by simpa using hstole)
    subst hcur
    exact ⟨{ h with
      idle := fun _ => rfl
      start := by simp
      unbegun := by simp }, hin, rfl, by simpa using hstole⟩
  case isTrue hstole =>
    have hlog : (s.wal.io (wal_undo_io s.wal)).log = encode_all hist := by
      change (s.wal.disk.run (wal_undo_io s.wal)).log = _
      rw [wal_undo_io, if_pos hstole, Disk.run_append, Disk.run_append]
      have hcut : ∀ (d : Disk) (n : Option Nat), (d.run (truncate_ops n)).log = d.log := by
        intro d n
        cases n <;> rfl
      have hlen : s.wal.txn_log_start ≤ s.wal.log.length := by
        rw [h.start hin, h.log, encode_all_append]
        simp
      simp only [Disk.run_cons, Disk.run_nil, Disk.apply, hcut, Disk.run_write_ops_log]
      change resize 0 s.wal.log s.wal.txn_log_start = _
      rw [resize_of_le hlen, h.start hin, h.log, encode_all_append, take_left]
    have hpages : (truncate_to (undo_scan s.wal).2 s.wal.data.num_pages).getD
        s.wal.data.num_pages ≤ MAX_PAGES := by
      have hn := h.pages
      rcases hb : (undo_scan s.wal).2 with _ | b
      · exact hn
      · rw [truncate_to]
        split
        · exact (le_of_lt ‹_›).trans hn
        · exact hn
    have hhist : ∀ r ∈ hist ++ [], r ∈ hist ++ cur := by
      intro r hr
      simp only [append_nil] at hr
      exact mem_append_left _ hr
    exact ⟨{ h with
      log := by rw [append_nil]; exact hlog
      sound := fun r hr => h.sound r (hhist r hr)
      below := fun r hr => h.below r (hhist r hr)
      steals := by simp
      idle := fun _ => rfl
      start := by simp
      unbegun := by simp
      pages := hpages }, hin, rfl, rfl⟩

/-- No part of the log has more pending pages than a transaction may stage. -/
theorem room_open (hrs : rs <+: hist ++ cur) :
    (segs rs).pend.length ≤ WAL_MAX_STAGED := by
  rcases prefix_or_prefix_of_prefix hrs (prefix_append hist _) with hpre | ⟨q, rfl⟩
  · exact h.room rs hpre
  · have hq := (prefix_append_right_inj hist).1 hrs
    rw [segs_steals hist fun r hr => h.steals r (hq.mem hr), h.closed]
    exact Nat.zero_le _

omit h in
/-- No prefix of the records of a commit has more pending pages than it stages. -/
theorem segs_commit_room (rs : List Rec) (lsn l : Nat) (staged : List StagedPage) {q : List Rec}
    (hq : q <+: page_recs lsn staged ++ [.commit l]) :
    (segs (rs ++ q)).pend.length ≤ (segs rs).pend.length + staged.length := by
  induction staged generalizing rs lsn q with
  | nil =>
    rcases q with _ | ⟨r, q⟩
    · simp
    · obtain ⟨rfl, hq'⟩ := cons_prefix_cons.1 hq
      obtain rfl := prefix_nil.1 hq'
      rw [segs_snoc]
      simp [Segs.next]
  | cons u staged ih =>
    rcases q with _ | ⟨r, q⟩
    · simp
    · obtain ⟨rfl, hq'⟩ := cons_prefix_cons.1 hq
      have := ih (rs ++ [.page lsn u.1 u.2]) (lsn + 1) hq'
      rw [append_assoc, singleton_append, segs_snoc] at this
      simp [Segs.next] at this
      simp
      omega

omit h in
theorem page_recs_lsn {staged : List StagedPage} :
    ∀ r ∈ page_recs lsn staged, r.lsn < lsn + staged.length := by
  induction staged generalizing lsn with
  | nil => simp [page_recs]
  | cons u staged ih =>
    intro r hr
    rcases mem_cons.1 hr with rfl | hr
    · simp [Rec.lsn]
    · have := ih r hr
      simp
      omega

/-- A commit closes a segment with the staged pages. -/
theorem commit (hlsn : s.wal.next_lsn + WAL_MAX_STAGED + 1 ≤ 2 ^ 64) :
    LogInv s.committed_open (hist ++ cur ++ commit_recs s.wal) [] ∧
      (segs (hist ++ cur ++ commit_recs s.wal)).done =
        (segs hist).done ++ [(s.wal.next_lsn + s.wal.staged.length, s.wal.staged)] := by
  have hroom := h.staged_room
  have hpend : segs (hist ++ cur) = ⟨(segs hist).done, []⟩ := by
    rw [segs_steals hist h.steals, ← h.closed]
  have hsegs : segs (hist ++ cur ++ commit_recs s.wal) = ⟨(segs hist).done ++
      [(s.wal.next_lsn + s.wal.staged.length, s.wal.staged)], []⟩ := by
    rw [commit_recs, ← append_assoc, segs_snoc, segs_page_recs, hpend]
    simp [Segs.next]
  have hrecs : ∀ r ∈ commit_recs s.wal, r.fits ∧
      r.lsn < s.wal.next_lsn + s.wal.staged.length + 1 := by
    intro r hr
    rcases mem_append.1 hr with hr | hr
    · exact ⟨page_recs_fits h.staged_lt _ r hr, (page_recs_lsn r hr).trans (Nat.lt_succ_self _)⟩
    · rw [mem_singleton.1 hr]
      exact ⟨trivial, Nat.lt_succ_self _⟩
  have hmem : ∀ r ∈ hist ++ cur ++ commit_recs s.wal ++ [],
      r ∈ hist ++ cur ∨ r ∈ commit_recs s.wal := by
    intro r hr
    rw [append_nil] at hr
    exact mem_append.1 hr
  refine ⟨{ h with
    log := by
      rw [append_nil, encode_all_append, ← h.log]
      exact wal_commit_open_log s.wal
    sound := fun r hr => (hmem r hr).elim (h.sound r) fun hr =>
      ⟨(hrecs r hr).1, by have := (hrecs r hr).2; omega⟩
    below := fun r hr => (hmem r hr).elim
      (fun hr => by
        have := h.below r hr
        change r.lsn < s.wal.next_lsn + s.wal.staged.length + 1
        omega) fun hr => (hrecs r hr).2
    steals := by simp
    closed := by rw [hsegs]
    room := ?_
    idle := fun _ => rfl
    start := nofun
    unbegun := nofun
    staged_room := Nat.zero_le _
    staged_lt := fun u hu => by cases hu }, by rw [hsegs]⟩
  -- a prefix ends in the old log or in the records of the commit
  intro rs hrs
  rcases prefix_or_prefix_of_prefix hrs (prefix_append (hist ++ cur) _) with
    hpre | ⟨q, rfl⟩
  · exact h.room_open hpre
  · have := segs_commit_room (hist ++ cur) s.wal.next_lsn _ s.wal.staged
      ((prefix_append_right_inj (hist ++ cur)).1 hrs)
    rw [hpend] at this
    simp only [length_nil, Nat.zero_add] at this
    exact this.trans hroom

/-- The checkpoint empties the log. -/
theorem checkpoint (hin : s.in_txn = false) :
    LogInv { s with wal := wal_checkpoint s.wal } [] [] where
  log := by
    change (s.wal.disk.run [.fsync_data, .log_truncate 0]).log = []
    simp [Disk.apply, resize]
  sound := by simp
  below := by simp
  steals := by simp
  closed := rfl
  room rs hrs := by simp [prefix_nil.1 hrs]
  idle _ := rfl
  start hin' := by simp [hin] at hin'
  unbegun _ _ := rfl
  __ := h

/-- Every call but `commit` and `undo` only appends records of the open
    transaction. -/
theorem call {c : Call} (hs : s.step c = some s') (hc : c ≠ .commit) (hu : c ≠ .undo)
    (hlsn : s.wal.next_lsn + 2 ≤ 2 ^ 64) : ∃ recs, LogInv s' hist (cur ++ recs) := by
  have hnone : LogInv s' hist cur → ∃ recs, LogInv s' hist (cur ++ recs) :=
    fun h' => ⟨[], by simpa using h'⟩
  cases c with
  | alloc => exact hnone (h.alloc hs)
  | begin => exact hnone (h.begin hs)
  | steal page_id buf => exact (h.steal hs hlsn).imp fun _ h' => h'.1
  | stage page_id buf => exact hnone (h.stage hs)
  | commit => exact absurd rfl hc
  | undo => exact absurd rfl hu

/-- Markers are before the records of the open transaction. -/
theorem marker_isPrefix (hrs : rs ++ [.commit lsn] <+: hist ++ cur) :
    rs ++ [.commit lsn] <+: hist := by
  rcases prefix_or_prefix_of_prefix hrs (prefix_append hist cur) with hpre | ⟨q, hq⟩
  · exact hpre
  rcases eq_nil_or_concat q with rfl | ⟨q, r, rfl⟩
  · rw [← hq]
    simp
  · rw [concat_eq_append, ← append_assoc] at hq
    obtain ⟨hrs', heq⟩ := append_inj' hq rfl
    have hcur : q ++ [.commit lsn] <+: cur := by
      refine (prefix_append_right_inj hist).1 ?_
      rw [← append_assoc, hrs']
      exact hrs
    have hsteal : (Rec.commit lsn).is_steal := h.steals _ (hcur.mem (by simp))
    exact hsteal.elim

end LogInv

/-- Sequence numbers never go back. -/
theorem step_next_lsn {s s' : Session} {c : Call} (hs : s.step c = some s') :
    s.wal.next_lsn ≤ s'.wal.next_lsn := by
  cases c with
  | alloc =>
    obtain ⟨-, rfl⟩ := step_alloc_eq hs
    exact le_rfl
  | begin =>
    obtain ⟨-, rfl⟩ := step_begin_eq hs
    exact le_rfl
  | steal page_id buf =>
    obtain ⟨-, hrc, rfl⟩ := step_take_eq hs
    rcases hundo : steal_undo s.wal (s.wal.next_lsn + (steal_begin s.wal).length) page_id
      with _ | undo
    · simp [wal_steal, hundo] at hrc
    · simp only [wal_steal, hundo]
      omega
  | stage page_id buf =>
    obtain ⟨-, hrc, rfl⟩ := step_take_eq hs
    obtain ⟨staged, heq, -⟩ := wal_stage_staged hrc
    rw [heq]
  | commit =>
    obtain ⟨-, -, rfl⟩ := step_commit_eq hs
    dsimp only [wal_commit]
    split <;> dsimp only <;> omega
  | undo =>
    obtain ⟨-, rfl⟩ := step_undo_eq hs
    dsimp only [wal_undo]
    split <;> exact le_rfl

end MiniDb
