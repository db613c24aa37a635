import MiniDb.Storage.CommittedPages
import MiniDb.Storage.Replnet

/-! # A replica on the primary's own log

  `replica_apply` reads the log of the primary itself, from a byte offset that
  the log may lose: a checkpoint and a reopen empty it.  It filters by the
  `lsn` of the last commit applied, which the primary starts again at 1 when
  it is reopened, and it writes after-images only, which a stolen page that is
  not staged does not have.

  In a run whose steps meet `shared_ok` the replica has, after every apply,
  the committed content of the primary. -/

namespace MiniDb

open Framework List

structure Shared where
  primary : Session
  /-- A commit has outgrown the log's limit and its checkpoint is to come. -/
  due : Bool
  replica : Replica
  /-- A commit was not applied yet. -/
  behind : Bool
  /-- The log was emptied and the replica has not looked since. -/
  cut : Bool

inductive SharedCall where
  | call (c : Call)
  | checkpoint
  | reopen
  | apply

/-- Equal data files and an empty log. -/
def shared_open (file : List Page) : Shared :=
  { primary := session_open ⟨file, []⟩
    due := false
    replica := replica_open file
    behind := false
    cut := false }

/-- The log is not emptied before its last commit was applied. -/
def Shared.step (n : Shared) : SharedCall → Option Shared
  | .call c =>
    if n.due then none
    else
      match c with
      | .commit =>
        if n.primary.in_txn ∧ (wal_commit n.primary.wal).2 = 0 then
          some { n with
            primary := n.primary.committed_open
            due := checkpoint_due (wal_commit_open n.primary.wal)
            behind := true }
        else none
      | c => (n.primary.step c).map fun s => { n with primary := s }
  | .checkpoint =>
    if n.due ∧ n.behind = false then
      some { n with
        primary := { n.primary with wal := wal_checkpoint n.primary.wal }
        due := false
        cut := true }
    else none
  | .reopen =>
    if n.due = false ∧ n.behind = false then
      some { n with primary := session_open n.primary.wal.disk, cut := true }
    else none
  | .apply =>
    some { n with
      replica := (replica_apply n.replica n.primary.wal.log).1
      behind := false
      cut := false }

/-- A commit stages every page it has stolen, its number is above the last one
    the replica has applied, and numbers fit 64 bits.  When the replica looks
    at a log that was emptied, that log is still shorter than the place the
    replica has reached. -/
def shared_ok (n : Shared) : SharedCall → Prop
  | .call c =>
    n.primary.wal.next_lsn + WAL_MAX_STAGED + 2 ≤ 2 ^ 64 ∧
    (c = .commit →
      (∀ p ∈ n.primary.wal.spilled, p ∈ n.primary.wal.staged.map Prod.fst) ∧
      n.replica.applied_lsn < n.primary.wal.next_lsn + n.primary.wal.staged.length)
  | .apply => n.cut = true →
      n.primary.wal.log.length < n.replica.apply_off ∨ n.replica.apply_off = 0
  | _ => True

/-! ### The invariant -/

/-- The primary when the checkpoint of its last commit is done. -/
def Shared.settled (n : Shared) : Session :=
  if n.due then { n.primary with wal := wal_checkpoint n.primary.wal } else n.primary

/-- `H` are the committed segments, `A` the part of the log the replica has
    read, `R` everything it has ever read. -/
structure SharedInv (file : List Page) (n : Shared) (H : List (Nat × List StagedPage))
    (hist cur A R : List Rec) (j k : Nat) : Prop where
  primary : ∃ B hist' cur', PrimaryInv n.settled B hist' cur'
  log : LogInv n.primary hist cur
  idle : n.due = true → n.primary.in_txn = false
  done : (segs hist).done = H.drop j
  asc : LsnsUp H
  applied : n.behind = false → k = H.length
  fresh : n.behind = true → last_lsn H < n.primary.wal.next_lsn
  taken : A <+: hist
  off : n.cut = false → n.replica.apply_off = (encode_all A).length
  cut : n.cut = true → A = []
  state : feed .init R = n.replica.feed []
  data : n.replica.data.file = write_all Page.zero file n.replica.writes
  follows : Follows H j k A R
  value : ∀ p, content (write_all Page.zero file (H.flatMap Prod.snd)) p =
    content n.primary.committed p

/-- A call of the primary that succeeds. -/
theorem shared_call_cases {n n' : Shared} {c : Call} (h : n.step (.call c) = some n') :
    n.due = false ∧
      ((c = .commit ∧ n.primary.in_txn = true ∧ (wal_commit n.primary.wal).2 = 0 ∧ n' = { n with
          primary := n.primary.committed_open
          due := checkpoint_due (wal_commit_open n.primary.wal)
          behind := true }) ∨
        c ≠ .commit ∧ ∃ s', n.primary.step c = some s' ∧ n' = { n with primary := s' }) := by
  unfold Shared.step at h
  by_cases hdue : n.due = true
  · simp [hdue] at h
  · simp only [if_neg hdue] at h
    refine ⟨by simpa using hdue, ?_⟩
    cases c with
    | commit =>
      dsimp only at h
      split at h
      · next hc =>
        cases h
        exact .inl ⟨rfl, hc.1, hc.2, rfl⟩
      · cases h
    | _ =>
      obtain ⟨s', hs, heq⟩ := Option.map_eq_some_iff.1 h
      exact .inr ⟨by simp, s', hs, heq.symm⟩

theorem LsnsUp.lt_of_last_lt {H : List (Nat × List StagedPage)} (h : LsnsUp H) {m : Nat}
    (hm : last_lsn H < m) : ∀ y ∈ H, y.1 < m := by
  intro y hy
  obtain ⟨i, hi, rfl⟩ := getElem_of_mem hy
  have := h.le_last hi le_rfl
  rw [take_length] at this
  omega

theorem last_lsn_snoc (H : List (Nat × List StagedPage)) (x : Nat × List StagedPage) :
    last_lsn (H ++ [x]) = x.1 := by
  simp [last_lsn]

/-- A commit with its checkpoint, in two steps. -/
theorem settled_commit {n : Shared} (hin : n.primary.in_txn = true)
    (hrc : (wal_commit n.primary.wal).2 = 0) (hstaged : write_rc n.primary.wal.staged = 0) :
    n.primary.step .commit = some { n with
      primary := n.primary.committed_open
      due := checkpoint_due (wal_commit_open n.primary.wal)
      behind := true }.settled := by
  rw [Session.step, if_pos ⟨hin, hrc⟩, wal_commit_split hstaged]
  simp only [Shared.settled]
  split <;> rfl

namespace SharedInv

variable {file : List Page} {n n' : Shared} {H : List (Nat × List StagedPage)}
  {hist cur A R : List Rec} {j k : Nat}

theorem settled_eq (hdue : n.due = false) : n.settled = n.primary := by
  simp [Shared.settled, hdue]

variable (h : SharedInv file n H hist cur A R j k) {s' : Session}

include h

theorem j_le : j ≤ H.length := by
  have := h.follows.le
  have := h.follows.len
  omega

/-- Calls that log no marker leave the committed segments as they are. -/
theorem quiet (hdue : n.due = false) {c : Call} (hc : c ≠ .commit)
    (hs : n.primary.step c = some s') {cur' : List Rec} (hlog : LogInv s' hist cur') :
    SharedInv file { n with primary := s' } H hist cur' A R j k := by
  obtain ⟨B, hist', cur'', hB⟩ := h.primary
  rw [settled_eq hdue] at hB
  have hdue' : { n with primary := s' }.due = false := hdue
  exact { h with
    primary := by
      rw [settled_eq hdue']
      exact hB.call hs hc
    log := hlog
    idle := fun hd => by simp [hdue] at hd
    fresh := fun hb => (h.fresh hb).trans_le (step_next_lsn hs)
    value := fun p => by
      rw [h.value p]
      exact congrArg (content · p) (step_committed hs hc).symm }

theorem commit (hdue : n.due = false) (hin : n.primary.in_txn = true)
    (hrc : (wal_commit n.primary.wal).2 = 0) (hok : shared_ok n (.call .commit)) :
    SharedInv file { n with
      primary := n.primary.committed_open
      due := checkpoint_due (wal_commit_open n.primary.wal)
      behind := true }
      (H ++ [(n.primary.wal.next_lsn + n.primary.wal.staged.length, n.primary.wal.staged)])
      (hist ++ cur ++ commit_recs n.primary.wal) [] A R j k := by
  obtain ⟨hlsn, hcommit⟩ := hok
  obtain ⟨hspilled, hnum⟩ := hcommit rfl
  obtain ⟨B, hist', cur', hB⟩ := h.primary
  rw [settled_eq hdue] at hB
  obtain ⟨hlog, hdone⟩ := h.log.commit (by omega)
  obtain ⟨⟨hist'', hB'⟩, hvalue⟩ := hB.commit
    (settled_commit hin hrc (write_rc_ok h.log.staged_lt)) hspilled
  -- the number of the segment is above all earlier ones
  have hlast : last_lsn H < n.primary.wal.next_lsn + n.primary.wal.staged.length := by
    rcases hb : n.behind with _ | _
    · have hk := h.follows.lsn
      rw [h.state, h.applied hb, take_length] at hk
      rw [← hk]
      exact hnum
    · exact (h.fresh hb).trans_le (Nat.le_add_right _ _)
  refine
    { primary := ⟨_, _, _, hB'⟩
      log := hlog
      idle := fun _ => rfl
      done := by rw [hdone, h.done, drop_append_of_le_length h.j_le]
      asc := h.asc.snoc (by dsimp only; omega) (h.asc.lt_of_last_lt hlast)
      applied := by simp
      fresh := fun _ => by
        rw [last_lsn_snoc]
        exact Nat.lt_succ_self _
      taken := h.taken.trans (by rw [append_assoc]; exact prefix_append _ _)
      __ := h
      follows := h.follows.grow _
      value := fun p => ?_ }
  have hpages : n.primary.committed_open.committed = { n with
      primary := n.primary.committed_open
      due := checkpoint_due (wal_commit_open n.primary.wal)
      behind := true }.settled.committed := by
    simp only [Shared.settled]
    split <;> rfl
  rw [flatMap_append, write_all_append, content_write_all, h.value p, hpages, hvalue p]
  simp

/-- The log is emptied after the replica has read all of it. -/
theorem emptied (hb : n.behind = false) {d : Bool} (hd : d = false)
    (hprimary : ∃ B hist' cur', PrimaryInv s' B hist' cur') (hlog : LogInv s' [] [])
    (hvalue : ∀ p, content s'.committed p = content n.primary.committed p) :
    SharedInv file { n with primary := s', due := d, cut := true } H [] [] [] R H.length H.length := by
  obtain rfl := h.applied hb
  subst hd
  exact { h with
    primary := hprimary
    log := hlog
    idle := nofun
    done := by simp
    applied := fun _ => rfl
    fresh := fun hb' => by simp [hb] at hb'
    taken := prefix_refl _
    off := nofun
    cut := fun _ => rfl
    follows := h.follows.cut (by
      rw [← h.follows.pend, h.state]
      rfl) le_rfl
    value := fun p => (h.value p).trans (hvalue p).symm }

theorem checkpoint (hs : n.step .checkpoint = some n') :
    SharedInv file n' H [] [] [] R H.length H.length := by
  obtain ⟨hc, hs⟩ := Option.ite_none_right_eq_some.1 hs
  cases hs
  exact h.emptied hc.2 rfl (by simpa [Shared.settled, hc.1] using h.primary)
    (h.log.checkpoint (h.idle hc.1)) fun _ => rfl

theorem reopen (hs : n.step .reopen = some n') :
    SharedInv file n' H [] [] [] R H.length H.length := by
  obtain ⟨hc, hs⟩ := Option.ite_none_right_eq_some.1 hs
  cases hs
  obtain ⟨B, hist', cur', hB⟩ := h.primary
  rw [settled_eq hc.1] at hB
  obtain ⟨hB', hvalue⟩ := hB.reopen
  exact h.emptied hc.2 hc.1 ⟨_, _, _, hB'⟩ (LogInv.opened hB.inv.disk.bound) hvalue

/-- The replica reads on from where it stopped, or from the start of a log that
    was emptied, and takes in every segment. -/
theorem apply (hs : n.step .apply = some n') (hok : shared_ok n .apply) :
    ∃ A' R', SharedInv file n' H hist cur A' R' j H.length := by
  cases hs
  obtain ⟨Q, hQ⟩ := h.taken.trans (prefix_append hist cur)
  have hlog : n.primary.wal.log = encode_all (A ++ Q) ++ [] := by
    rw [append_nil, hQ, h.log.log]
  have hdone : (segs (hist ++ cur)).done = H.drop j := by
    rw [segs_steals hist h.log.steals, h.done]
  have hoff : (if (encode_all (A ++ Q) ++ []).length < n.replica.apply_off then 0
      else n.replica.apply_off) = (encode_all A).length := by
    rcases hcut : n.cut with _ | _
    · rw [h.off hcut, if_neg (by simp)]
    · have hA := h.cut hcut
      have hlen := hok hcut
      rw [hlog] at hlen
      rw [hA] at hlen ⊢
      split
      · rfl
      · next hge => exact hlen.resolve_left hge
  obtain ⟨A₂, B, hap⟩ := replica_apply_from Unfinished.nil hoff
    (fun x hx => h.log.sound x (hQ ▸ mem_append_right _ hx))
    (h.state ▸ h.follows.bounded h.asc (hQ ▸ prefix_refl _)
      (hdone ▸ prefix_refl _)
      fun _ => h.log.room_open)
  have hoff' := hap.off rfl
  rw [← hlog] at hap hoff'
  have hsplit : hist ++ cur = A ++ A₂ ++ B := by
    rw [← hQ, hap.split, append_assoc]
  have hdone' : (segs (A ++ A₂)).done = H.drop j := by
    rw [← hdone, hsplit, segs_no_commit _ hap.tail]
  obtain ⟨k', hk'⟩ := h.follows.append h.asc (Q := A₂) (hdone' ▸ prefix_refl _)
  obtain rfl : k' = H.length := by
    have hle := hk'.le
    have hlen := hk'.len
    rw [hdone', length_drop] at hle
    omega
  -- what was read ends with a marker, so it is before the open transaction
  have htaken : A ++ A₂ <+: hist := by
    by_cases hA₂ : A₂ = []
    · rw [hA₂, append_nil]
      exact h.taken
    obtain ⟨A₃, lsn, rfl⟩ := hap.last hA₂
    rw [← append_assoc]
    refine h.log.marker_isPrefix ?_
    rw [hsplit, ← append_assoc]
    exact prefix_append _ _
  refine ⟨A ++ A₂, R ++ A₂, { h with
    applied := fun _ => rfl
    fresh := nofun
    taken := htaken
    off := fun _ => hoff'
    cut := nofun
    state := by
      rw [feed_append, h.state]
      exact hap.state
    data := hap.data file h.data
    follows := hk' }⟩

theorem step {a : SharedCall} (hs : n.step a = some n') (hok : shared_ok n a) :
    ∃ H' hist' cur' A' R' j' k', SharedInv file n' H' hist' cur' A' R' j' k' := by
  cases a with
  | call c =>
    have hroom : 2 ≤ WAL_MAX_STAGED := by decide
    have hlsn := hok.1
    obtain ⟨hdue, ⟨rfl, hin, hrc, rfl⟩ | ⟨hc, s', hstep, rfl⟩⟩ := shared_call_cases hs
    · exact ⟨_, _, _, _, _, _, _, h.commit hdue hin hrc hok⟩
    · by_cases hu : c = .undo
      · subst hu
        exact ⟨_, _, _, _, _, _, _, h.quiet hdue hc hstep (h.log.undo hstep).1⟩
      · obtain ⟨recs, hlog⟩ := h.log.call hstep hc hu (by omega)
        exact ⟨_, _, _, _, _, _, _, h.quiet hdue hc hstep hlog⟩
  | checkpoint => exact ⟨_, _, _, _, _, _, _, h.checkpoint hs⟩
  | reopen => exact ⟨_, _, _, _, _, _, _, h.reopen hs⟩
  | apply =>
    obtain ⟨A', R', h'⟩ := h.apply hs hok
    exact ⟨_, _, _, _, _, _, _, h'⟩

omit h in
theorem opened (hmax : file.length ≤ MAX_PAGES) :
    SharedInv file (shared_open file) [] [] [] [] [] 0 0 := by
  have hopen : (wal_open ⟨file, []⟩).data = ⟨file, file.length⟩ := rfl
  have hpages : (session_open ⟨file, []⟩).committed = file := by
    simp [session_open, hopen, Pager.pages]
  have hfile : (session_open ⟨file, []⟩).wal.data.file = file := by
    simp [session_open, hopen]
  refine
    { primary := ⟨_, [], [], session_open_inv hmax, ?_, ?_, (fun h => by cases h),
        (fun h => by cases h), fun _ => rfl, fun p _ => ?_⟩
      log := LogInv.opened hmax
      idle := fun h => by cases h
      done := rfl
      asc := ⟨by simp, List.Pairwise.nil⟩
      applied := fun _ => rfl
      fresh := fun h => by cases h
      taken := prefix_refl _
      off := fun _ => rfl
      cut := fun h => by cases h
      state := rfl
      data := rfl
      follows := ⟨List.nil_prefix, rfl, rfl, rfl, le_rfl, le_rfl⟩
      value := fun p => by rw [show (shared_open file).primary.committed = file from hpages]; rfl }
  · intro u hu
    simp [Scan.init] at hu
  · change (session_open ⟨file, []⟩).wal.data.file.length = _
    rw [hfile]
    simp [shared_open, Shared.settled, session_open, hopen]
  · change content (session_open ⟨file, []⟩).wal.data.file p =
      content (session_open ⟨file, []⟩).committed p
    rw [hfile, hpages]

end SharedInv

/-- In every run whose steps meet `shared_ok`, after every apply the replica's
    data file has the committed content of the primary. -/
theorem replica_converges {file : List Page} (hmax : file.length ≤ MAX_PAGES)
    {as : List SharedCall} {n n' : Shared}
    (hrun : Steps Shared.step shared_ok (shared_open file) as n) (hok : shared_ok n .apply)
    (hs : n.step .apply = some n') :
    ∀ p < n'.primary.committed.length,
      content n'.replica.data.file p = content n'.primary.committed p := by
  obtain ⟨H, hist, cur, A, R, j, k, h⟩ := (hrun.snoc .apply hok hs).invariant
    (fun n => ∃ H hist cur A R j k, SharedInv file n H hist cur A R j k)
    (fun n a n' ⟨_, _, _, _, _, _, _, h⟩ hok hs => h.step hs hok)
    ⟨_, _, _, _, _, _, _, SharedInv.opened hmax⟩
  intro p _
  have hb : n'.behind = false := by
    cases hs
    rfl
  have hout := h.follows.out
  rw [h.state, h.applied hb, take_length] at hout
  rw [h.data, show n'.replica.writes = H.flatMap Prod.snd from hout]
  exact h.value p

/-- A page is stolen, staged and committed. -/
def shared_calls : List SharedCall :=
  [.call .alloc, .call .begin, .call (.steal 0 (Page.fill 1)), .call (.stage 0 (Page.fill 2)),
    .call .commit]

/-- `shared_ok` for a replica that has not lost its place, as a test. -/
def shared_test (n : Shared) : SharedCall → Bool
  | .call .commit =>
    decide (n.primary.wal.next_lsn + WAL_MAX_STAGED + 2 ≤ 2 ^ 64) &&
    n.primary.wal.spilled.all (fun p => decide (p ∈ n.primary.wal.staged.map Prod.fst)) &&
    decide (n.replica.applied_lsn < n.primary.wal.next_lsn + n.primary.wal.staged.length)
  | .call _ => decide (n.primary.wal.next_lsn + WAL_MAX_STAGED + 2 ≤ 2 ^ 64)
  | .apply => !n.cut
  | _ => true

theorem shared_test_ok {n : Shared} {a : SharedCall} (h : shared_test n a = true) :
    shared_ok n a := by
  cases a with
  | call c =>
    cases c with
    | commit =>
      simp only [shared_test, Bool.and_eq_true, decide_eq_true_eq, all_eq_true] at h
      exact ⟨h.1.1, fun _ => ⟨h.1.2, h.2⟩⟩
    | _ => exact ⟨by simpa [shared_test] using h, nofun⟩
  | apply =>
    intro hcut
    simp [shared_test, hcut] at h
  | _ => trivial

set_option maxRecDepth 100000 in
theorem run_shared_calls :
    (run (fun n a => if shared_test n a = true then n.step a else none) (shared_open [])
      shared_calls).any (fun n => shared_test n .apply &&
        decide (n.primary.committed.length = 1)) = true := by
  decide +kernel

theorem replica_converges_stolen : ∃ n n', Steps Shared.step shared_ok (shared_open []) shared_calls n ∧
    n.step .apply = some n' ∧ n'.primary.committed.length = 1 ∧
    content n'.replica.data.file 0 = content n'.primary.committed 0 := by
  obtain ⟨n, hrun, hn⟩ := (Option.any_eq_true _ _).1 run_shared_calls
  simp only [Bool.and_eq_true, decide_eq_true_eq] at hn
  have hsteps := (Steps.of_guarded hrun).mono fun _ _ => shared_test_ok
  refine ⟨n, _, hsteps, rfl, hn.2, ?_⟩
  exact replica_converges (Nat.zero_le _) hsteps (shared_test_ok hn.1) rfl 0 (by
    change 0 < n.primary.committed.length
    omega)

/-- The primary is reopened between two commits of the same page. -/
def reopened_calls : List SharedCall :=
  [.call .alloc, .call .begin, .call (.stage 0 (Page.fill 1)), .call .commit, .apply,
    .reopen, .apply, .call .begin, .call (.stage 0 (Page.fill 2)), .call .commit]

set_option maxRecDepth 100000 in
theorem run_reopened_calls :
    (run Shared.step (shared_open []) reopened_calls).any (fun n =>
      (n.step .apply).any fun n' => decide (0 < n'.primary.committed.length) &&
        decide (0 < n'.replica.data.file.length) && decide ((content n'.replica.data.file 0).bytes ≠
          (content n'.primary.committed 0).bytes)) = true := by
  decide +kernel

/-- The second commit has no larger number than the first: the replica skips it. -/
theorem replica_skips_reopened :
    ¬ ∀ (file : List Page) (as : List SharedCall) (n n' : Shared), file.length ≤ MAX_PAGES →
      Steps Shared.step (fun _ _ => True) (shared_open file) as n → n.step .apply = some n' →
        ∀ p < n'.primary.committed.length, ∀ page, n'.replica.data.file[p]? = some page →
          content n'.primary.committed p = page := by
  intro hall
  obtain ⟨n, hrun, hn⟩ := (Option.any_eq_true _ _).1 run_reopened_calls
  obtain ⟨n', hs, hn'⟩ := (Option.any_eq_true _ _).1 hn
  simp only [Bool.and_eq_true, decide_eq_true_eq] at hn'
  obtain ⟨⟨hlen, hfile⟩, hne⟩ := hn'
  have h := hall [] reopened_calls n n' (Nat.zero_le _)
    (Steps.of_run (fun _ _ _ => trivial) hrun) hs 0 hlen _ (getElem?_eq_getElem hfile)
  apply hne
  rw [h, content, getD_eq_getElem _ _ hfile]

end MiniDb
