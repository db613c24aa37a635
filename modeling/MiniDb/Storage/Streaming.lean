import MiniDb.Storage.Replnet

/-! # Streamed replication over whole runs

  In a run in which every cut of the log meets the conditions of `stream_ok`,
  the standby writes the committed images in commit order, and all of them
  once the stream is drained.

  The invariant has three parts: `Source` is about the primary, `Line` about
  the socket and the standby, `Place` about the sender's offset.  Calls of the
  primary leave `Line` as it is; `recv` and `apply` leave the other two. -/

namespace MiniDb

open Framework List Option Bool

/-! ### The invariant -/

/-- The standby's half: what it has and what is on the way are the records `R`
    and the beginning `t` of one more. -/
structure Line (file : List Page) (n : Net) (R : List Rec) (t : List UInt8) : Prop where
  wire : ∃ frames : List (List UInt8), n.sock = frames.flatMap frame_bytes ∧
    (∀ f ∈ frames, f ≠ [] ∧ f.length ≤ REPLNET_CHUNK_MAX) ∧
    n.standby_log ++ frames.flatten = encode_all R ++ t
  unfinished : Unfinished t
  sound : ∀ r ∈ R, r.sound
  bounded : Bounded .init R
  caught : ∃ A, CaughtUp file n.standby A ∧ A <+: R ∧
    (encode_all A).length ≤ n.standby_log.length

/-- The sender's offset: either the part of the log before it is what was sent
    of this log, or the log was cut below it and the sender starts again. -/
def Place (n : Net) (hist cur R : List Rec) (t : List UInt8) (j : Nat) : Prop :=
  (∃ P k, n.sent_off ≤ n.primary.wal.log.length ∧ P <+: hist ++ cur ∧
    n.primary.wal.log.take n.sent_off = encode_all P ++ t ∧ Follows n.logged j k P R) ∨
  (∃ k, n.primary.wal.log.length < n.sent_off ∧ t = [] ∧ Follows n.logged j k [] R)

/-- The primary's half. -/
structure Source (n : Net) (hist cur : List Rec) (j : Nat) : Prop where
  log : LogInv n.primary hist cur
  idle : n.due = true → n.primary.in_txn = false
  done : (segs hist).done = n.logged.drop j
  asc : LsnsUp n.logged
  below : ∀ x ∈ n.logged, x.1 < n.primary.wal.next_lsn
  pos : 0 < n.primary.wal.next_lsn

structure NetInv (file : List Page) (n : Net) (hist cur R : List Rec) (t : List UInt8) (j : Nat) :
    Prop where
  source : Source n hist cur j
  line : Line file n R t
  place : Place n hist cur R t j

/-! ### The standby -/

theorem frame_bytes_ne_nil (f : List UInt8) : frame_bytes f ≠ [] := by
  intro h
  have := congrArg List.length h
  simp [frame_bytes] at this

namespace Line

variable {file : List Page} {n : Net} {R : List Rec} {t : List UInt8}

variable (h : Line file n R t)

include h

theorem recv {hs bs : List Nat} {n' : Net} (hstep : n.step (.recv hs bs) = some n') :
    Line file n' R t := by
  obtain ⟨frames, hsock, hframes, hlog⟩ := h.wire
  rw [Net.step] at hstep
  rcases frames with _ | ⟨f, frames⟩
  · -- an empty socket: the call waits
    simp [hsock, walreceiver_recv, sock_read] at hstep
  · obtain ⟨hne, hmax⟩ := hframes f mem_cons_self
    rw [hsock, flatMap_cons, walreceiver_recv_frame hs bs hne hmax] at hstep
    cases hstep
    obtain ⟨A, hA, hpre, hlen⟩ := h.caught
    refine { h with
      wire := ⟨frames, rfl, fun g hg => hframes g (mem_cons_of_mem _ hg), ?_⟩
      caught := ⟨A, hA, hpre, ?_⟩ }
    · simpa using hlog
    · simp only [length_append]
      omega

/-- The standby's log is a beginning of the stream. -/
theorem standby_log_isPrefix : n.standby_log <+: encode_all R ++ t := by
  obtain ⟨frames, -, -, hlog⟩ := h.wire
  exact hlog ▸ prefix_append _ _

/-- `replica_apply` on what has arrived. -/
theorem apply_arrived :
    ∃ R' t', R' <+: R ∧ n.standby_log = encode_all R' ++ t' ∧ Unfinished t' ∧
      (n.standby_log = encode_all R ++ t → R' = R) ∧
      (replica_apply n.standby n.standby_log).1.writes = (feed .init R').out ∧
      ∃ A, CaughtUp file (replica_apply n.standby n.standby_log).1 A ∧ A <+: R' := by
  obtain ⟨A, hA, hpre, hlen⟩ := h.caught
  obtain ⟨R', t', htake, ht', hR', hall⟩ := take_encode R h.unfinished n.standby_log.length
  rw [← prefix_iff_eq_take.1 h.standby_log_isPrefix] at htake
  obtain ⟨Q, rfl⟩ := hall A hpre hlen
  obtain ⟨A', B, hsplit, -, -, hcaught, hwrites⟩ := hA.apply
    (fun x hx => h.sound x (hR'.mem hx)) (h.bounded.isPrefix hR') ht'
  rw [htake]
  refine ⟨A ++ Q, t', hR', rfl, ht', fun hfull => ?_, hwrites, A', hcaught, hsplit ▸ prefix_append _ _⟩
  -- all of it has arrived: no record of `R` is missing
  exact (hR'.eq_of_length_le (hall R (prefix_refl _) (by
    rw [htake, hfull]
    simp)).length_le)

theorem apply {n' : Net} (hstep : n.step .apply = some n') : Line file n' R t := by
  cases hstep
  obtain ⟨R', t', hR', hlog, -, -, -, A, hA, hpre⟩ := h.apply_arrived
  refine { h with caught := ⟨A, hA, hpre.trans hR', ?_⟩ }
  obtain ⟨Q, rfl⟩ := hpre
  rw [show n.standby_log = encode_all (A ++ Q) ++ t' from hlog]
  simp

/-- A frame is put on the wire. -/
theorem send {f : List UInt8} (hne : f ≠ []) (hmax : f.length ≤ REPLNET_CHUNK_MAX) {Q : List Rec}
    {t' : List UInt8} (ht' : Unfinished t') (hf : t ++ f = encode_all Q ++ t')
    (hs : ∀ r ∈ Q, r.sound) (hb : Bounded (feed .init R) Q) (off : Nat) :
    Line file { n with sent_off := off, sock := n.sock ++ frame_bytes f } (R ++ Q) t' := by
  obtain ⟨frames, hsock, hframes, hlog⟩ := h.wire
  obtain ⟨A, hA, hpre, hlen⟩ := h.caught
  refine ⟨⟨frames ++ [f], by simp [hsock], ?_, ?_⟩, ht', ?_, h.bounded.append hb,
    A, hA, hpre.trans (prefix_append _ _), hlen⟩
  · exact forall_mem_append.mpr ⟨hframes, forall_mem_singleton.mpr ⟨hne, hmax⟩⟩
  · rw [flatten_append, ← append_assoc, hlog, append_assoc, encode_all_append,
      append_assoc, ← hf]
    simp
  · intro r hr
    exact (mem_append.1 hr).elim (h.sound r) (hs r)

/-- The primary does not touch it. -/
theorem frame {s : Session} {b : Bool} {off : Nat} {H : List (Nat × List StagedPage)} :
    Line file { n with primary := s, due := b, sent_off := off, logged := H } R t :=
  ⟨h.wire, h.unfinished, h.sound, h.bounded, h.caught⟩

end Line

/-! ### The primary -/

/-- A call of the primary that succeeds. -/
theorem call_cases {n n' : Net} {c : Call} (h : n.call c = some n') :
    n.due = false ∧
      ((c = .commit ∧ n.primary.in_txn = true ∧ n' = { n with
          primary := n.primary.committed_open
          due := checkpoint_due (wal_commit_open n.primary.wal)
          logged := n.logged ++ [(n.primary.wal.next_lsn + n.primary.wal.staged.length,
            n.primary.wal.staged)] }) ∨
        c ≠ .commit ∧ ∃ s', n.primary.step c = some s' ∧ n' = { n with primary := s' }) := by
  unfold Net.call at h
  by_cases hdue : n.due = true
  · simp [hdue] at h
  · rw [if_neg hdue] at h
    refine ⟨by simpa using hdue, ?_⟩
    cases c with
    | commit =>
      dsimp only at h
      split at h
      · next hc =>
        cases h
        exact .inl ⟨rfl, hc.1, rfl⟩
      · cases h
    | _ =>
      obtain ⟨s', hs, heq⟩ := map_eq_some_iff.1 h
      exact .inr ⟨by simp, s', hs, heq.symm⟩

namespace Source

variable {n : Net} {hist cur : List Rec} {j : Nat}

variable (h : Source n hist cur j)

include h

/-- A call that logs no marker. -/
theorem step {c : Call} {s' : Session} (hdue : n.due = false)
    (hs : n.primary.step c = some s') {cur' : List Rec} (hlog : LogInv s' hist cur') :
    Source { n with primary := s' } hist cur' j where
  log := hlog
  idle hd := by simp [hdue] at hd
  __ := h
  below x hx := (h.below x hx).trans_le (step_next_lsn hs)
  pos := h.pos.trans_le (step_next_lsn hs)

theorem commit (hj : j ≤ n.logged.length)
    (hlsn : n.primary.wal.next_lsn + WAL_MAX_STAGED + 1 ≤ 2 ^ 64) :
    Source { n with
      primary := n.primary.committed_open
      due := checkpoint_due (wal_commit_open n.primary.wal)
      logged := n.logged ++ [(n.primary.wal.next_lsn + n.primary.wal.staged.length,
        n.primary.wal.staged)] } (hist ++ cur ++ commit_recs n.primary.wal) [] j := by
  obtain ⟨hlog, hdone⟩ := h.log.commit hlsn
  have hpos := h.pos
  refine ⟨hlog, fun _ => rfl, ?_, h.asc.snoc (by dsimp only; omega) fun y hy => ?_, ?_, ?_⟩
  · rw [hdone, h.done, drop_append_of_le_length hj]
  · exact (h.below y hy).trans_le (Nat.le_add_right _ _)
  · intro y hy
    change y.1 < n.primary.wal.next_lsn + n.primary.wal.staged.length + 1
    rcases mem_append.1 hy with hy | hy
    · have := h.below y hy
      omega
    · rw [mem_singleton.1 hy]
      exact Nat.lt_succ_self _
  · change 0 < n.primary.wal.next_lsn + n.primary.wal.staged.length + 1
    omega

theorem checkpoint (hin : n.primary.in_txn = false) :
    Source { n with primary := { n.primary with wal := wal_checkpoint n.primary.wal }, due := false }
      [] [] n.logged.length where
  log := h.log.checkpoint hin
  idle hd := by cases hd
  done := by simp
  __ := h

end Source

/-! ### The sender's offset -/

namespace Place

variable {n n' : Net} {hist cur hist' cur' R : List Rec} {t : List UInt8} {j : Nat}

variable (h : Place n hist cur R t j)

include h

/-- The log grows. -/
theorem extend (hoff : n'.sent_off = n.sent_off) (hlog : n.primary.wal.log <+: n'.primary.wal.log)
    (hrecs : hist ++ cur <+: hist' ++ cur')
    (hseen : n.primary.wal.log.length < n.sent_off → n'.primary.wal.log.length < n.sent_off)
    (htr : ∀ k P, Follows n.logged j k P R → Follows n'.logged j k P R) :
    Place n' hist' cur' R t j := by
  rw [Place, hoff]
  rcases h with ⟨P, k, hle, hP, htake, hk⟩ | ⟨k, hlt, ht, hk⟩
  · refine .inl ⟨P, k, hle.trans hlog.length_le, hP.trans hrecs, ?_, htr k P hk⟩
    obtain ⟨more, hmore⟩ := hlog
    rw [← hmore, take_append_of_le_length hle, htake]
  · exact .inr ⟨k, hseen hlt, ht, htr k [] hk⟩

/-- How far the reader is in the history. -/
theorem tracks : ∃ P k, Follows n.logged j k P R := by
  rcases h with ⟨P, k, -, -, -, hk⟩ | ⟨k, -, -, hk⟩
  · exact ⟨P, k, hk⟩
  · exact ⟨[], k, hk⟩

theorem j_le : j ≤ n.logged.length := by
  obtain ⟨P, k, hk⟩ := h.tracks
  have := hk.le
  have := hk.len
  omega

/-- All of the log was sent: the reader has every segment. -/
theorem full (hsrc : Source n hist cur j) (ht : Unfinished t)
    (hoff : n.sent_off = n.primary.wal.log.length) :
    t = [] ∧ Follows n.logged j n.logged.length (hist ++ cur) R := by
  rcases h with ⟨P, k, -, hP, htake, hk⟩ | ⟨k, hlt, -⟩
  · rw [hoff, take_length, hsrc.log.log] at htake
    have ht := unfinished_of_encode ht htake
    refine ⟨ht, ?_⟩
    -- no record is missing from `P`: it would have a byte
    obtain ⟨Q, hQ⟩ := hP
    have hlen := congrArg List.length htake
    rw [← hQ, encode_all_append, ht] at hlen
    have hnil : Q = [] := by
      have := length_le_encode_all Q
      simp at hlen
      exact length_eq_zero_iff.1 (by simp [hlen] at this; simp [this])
    rw [hnil, append_nil] at hQ
    subst hQ
    have hdone : (segs (hist ++ cur)).done = n.logged.drop j := by
      rw [segs_steals hist hsrc.log.steals, hsrc.done]
    have hle := hk.le
    have hlen := hk.len
    rw [hdone, length_drop] at hle
    obtain rfl : k = n.logged.length := by omega
    exact hk
  · omega

omit h in
/-- A record list that ends before a cut of the log. -/
theorem isPrefix_of_encode_le {P : List Rec} (hP : P <+: hist ++ cur)
    (hle : (encode_all P).length ≤ (encode_all hist).length) : P <+: hist := by
  rcases prefix_or_prefix_of_prefix hP (prefix_append hist cur) with hpre | ⟨Q, rfl⟩
  · exact hpre
  · rw [encode_all_append, length_append] at hle
    have := length_le_encode_all Q
    have hnil : Q = [] := length_eq_zero_iff.1 (by omega)
    simp [hnil]

/-- A rollback cuts the log. -/
theorem undo (hsrc : Source n hist cur j) (ht : Unfinished t) {s' : Session}
    (hs : n.primary.step .undo = some s')
    (hok : n.primary.wal.stole = true → n.primary.wal.txn_log_start < n.sent_off →
      ∃ rs, n.primary.wal.log.take n.sent_off = encode_all rs) :
    Place { n with primary := s' } hist [] R t j := by
  obtain ⟨hlog', hin, -, -⟩ := hsrc.log.undo hs
  have hcut : s'.wal.log = encode_all hist := by simpa using hlog'.log
  have hlog : n.primary.wal.log = encode_all hist ++ encode_all cur := by
    rw [hsrc.log.log, encode_all_append]
  rcases h with ⟨P, k, hle, hP, htake, hk⟩ | ⟨k, hlt, ht, hk⟩
  · have hPle : (encode_all P).length ≤ n.sent_off := by
      have := congrArg List.length htake
      simp at this
      omega
    by_cases hoff : n.sent_off ≤ (encode_all hist).length
    · -- the cut is behind what was sent
      refine .inl ⟨P, k, hcut ▸ hoff, ?_, ?_, hk⟩
      · rw [append_nil]
        exact isPrefix_of_encode_le hP (hPle.trans hoff)
      · rw [← htake, hlog, take_append_of_le_length hoff]
        exact congrArg (List.take n.sent_off) hcut
    · -- records of the transaction were sent, and whole ones only
      have hstart := hsrc.log.start hin
      have hstole : n.primary.wal.stole = true := by
        by_contra hfalse
        have := hsrc.log.unbegun hin (by simpa using hfalse)
        rw [hlog, this] at hle
        simp at hle
        omega
      obtain ⟨rs, hrs⟩ := hok hstole (by omega)
      have htnil := unfinished_of_encode ht (hrs ▸ htake)
      have hpend : (segs P).pend = [] := by
        rcases prefix_or_prefix_of_prefix hP (prefix_append hist cur) with
          ⟨Q, hQ⟩ | ⟨Q, rfl⟩
        · have := congrArg List.length htake
          rw [htnil] at this
          rw [← hQ, encode_all_append] at hoff
          simp at this hoff
          omega
        · have hQ := (prefix_append_right_inj hist).1 hP
          rw [segs_steals hist fun r hr => hsrc.log.steals r (hQ.mem hr), hsrc.log.closed]
      have := hk.le
      refine .inr ⟨k, ?_, htnil, hk.cut hpend (by omega)⟩
      change s'.wal.log.length < n.sent_off
      rw [hcut]
      omega
  · refine .inr ⟨k, ?_, ht, hk⟩
    change s'.wal.log.length < n.sent_off
    rw [hlog, length_append] at hlt
    rw [hcut]
    omega

/-- A checkpoint empties the log, which was sent in full. -/
theorem checkpoint (hsrc : Source n hist cur j) (ht : Unfinished t) (hin : n.primary.in_txn = false)
    (hoff : n.sent_off = n.primary.wal.log.length) :
    Place { n with primary := { n.primary with wal := wal_checkpoint n.primary.wal }, due := false }
      [] [] R t n.logged.length := by
  obtain ⟨htnil, hk⟩ := h.full hsrc ht hoff
  have hpend : (segs (hist ++ cur)).pend = [] := by
    rw [segs_steals hist hsrc.log.steals, hsrc.log.closed]
  have hlog : (wal_checkpoint n.primary.wal).log = [] := by
    simpa using (hsrc.log.checkpoint hin).log
  have hk' : Follows n.logged n.logged.length n.logged.length [] R := hk.cut hpend le_rfl
  by_cases hzero : n.sent_off = 0
  · refine .inl ⟨[], _, ?_, prefix_refl _, ?_, hk'⟩
    · simp [hzero]
    · simp [hzero, htnil]
  · refine .inr ⟨_, ?_, htnil, hk'⟩
    simp [hlog]
    omega

/-- The sender sees that the log was cut and starts again. -/
theorem restart (hlt : n.primary.wal.log.length < n.sent_off) :
    Place { n with sent_off := 0 } hist cur R t j := by
  rcases h with ⟨P, k, hle, -⟩ | ⟨k, -, rfl, hk⟩
  · omega
  · exact .inl ⟨[], k, Nat.zero_le _, nil_prefix, by simp, hk⟩

end Place

/-! ### Every call -/

namespace NetInv

variable {file : List Page} {n n' : Net} {hist cur R : List Rec} {t : List UInt8} {j : Nat}

variable (h : NetInv file n hist cur R t j)

include h

/-- Sending from an offset inside the log. -/
theorem send_from (hle : n.sent_off ≤ n.primary.wal.log.length) (hs : n.step .send = some n') :
    ∃ R' t', NetInv file n' hist cur R' t' j := by
  obtain ⟨hsrc, hline, hplace⟩ := h
  obtain ⟨f, hmax, hsend, hcut, hend, -⟩ := walsender_send_spec hle
  rw [Net.step, hsend] at hs
  by_cases hnil : f = []
  · subst hnil
    simp only [length_nil, Nat.add_zero, if_true, append_nil, Option.some.injEq] at hs
    exact ⟨R, t, hs ▸ ⟨hsrc, hline, hplace⟩⟩
  rw [if_neg hnil] at hs
  cases hs
  rcases hplace with ⟨P, k, -, hP, htake, hk⟩ | ⟨k, hlt, -⟩
  · -- the part of the log that has now been sent, as records
    obtain ⟨P', t', hP', ht', hpre, hall⟩ := take_encode (hist ++ cur) Unfinished.nil
      (n.sent_off + f.length)
    rw [append_nil, ← hsrc.log.log, hcut, htake] at hP'
    have hPle : (encode_all P).length ≤ n.sent_off + f.length := by
      have := congrArg List.length htake
      simp at this
      omega
    obtain ⟨Q, rfl⟩ := hall P hP hPle
    have hdone : (segs (hist ++ cur)).done <+: n.logged.drop j := by
      rw [segs_steals hist hsrc.log.steals]
      exact hsrc.done ▸ prefix_refl _
    obtain ⟨k', hk'⟩ := hk.append hsrc.asc ((segs_done_isPrefix hpre).trans hdone)
    have hf : t ++ f = encode_all Q ++ t' := by
      rw [append_assoc, encode_all_append, append_assoc] at hP'
      exact append_cancel_left hP'
    have hsound : ∀ r ∈ Q, r.sound := fun r hr =>
      hsrc.log.sound r (hpre.mem (mem_append_right _ hr))
    refine ⟨R ++ Q, t',
      ⟨hsrc.log, hsrc.idle, hsrc.done, hsrc.asc, hsrc.below, hsrc.pos⟩,
      hline.send hnil hmax ht' hf hsound
        (hk.bounded hsrc.asc hpre hdone fun _ => hsrc.log.room_open) _,
      .inl ⟨P ++ Q, k', hend, hpre, ?_, hk'⟩⟩
    change n.primary.wal.log.take (n.sent_off + f.length) = _
    rw [hcut, htake, ← hP']
  · omega

theorem send (hs : n.step .send = some n') : ∃ R' t', NetInv file n' hist cur R' t' j := by
  rcases lt_or_ge n.primary.wal.log.length n.sent_off with hlt | hge
  · -- the log was cut: the same call from offset 0
    have h₀ : NetInv file { n with sent_off := 0 } hist cur R t j :=
      ⟨⟨h.source.log, h.source.idle, h.source.done, h.source.asc, h.source.below, h.source.pos⟩,
        ⟨h.line.wire, h.line.unfinished, h.line.sound, h.line.bounded, h.line.caught⟩,
        h.place.restart hlt⟩
    refine h₀.send_from (Nat.zero_le _) ?_
    rw [← hs]
    simp only [Net.step, walsender_send_restart hlt]
  · exact h.send_from hge hs

theorem call {c : Call} (hs : n.step (.call c) = some n') (hok : stream_ok n (.call c)) :
    ∃ hist' cur', NetInv file n' hist' cur' R t j := by
  obtain ⟨hlsn, hundo, hseen⟩ := hok
  have hroom : 2 ≤ WAL_MAX_STAGED := by decide
  obtain ⟨hdue, ⟨rfl, -, rfl⟩ | ⟨hc, s', hstep, rfl⟩⟩ := call_cases hs
  · -- commit
    refine ⟨hist ++ cur ++ commit_recs n.primary.wal, [], h.source.commit h.place.j_le (by omega),
      h.line.frame, h.place.extend rfl ?_ ?_ (hseen _ hs) fun k P hk => hk.grow _⟩
    · exact wal_commit_open_log n.primary.wal ▸ prefix_append _ _
    · rw [append_nil]
      exact prefix_append _ _
  · by_cases hu : c = .undo
    · subst hu
      exact ⟨hist, [], h.source.step hdue hstep (h.source.log.undo hstep).1, h.line.frame,
        h.place.undo h.source h.line.unfinished hstep (hundo rfl)⟩
    · -- the other calls at most append records
      obtain ⟨recs, hlog⟩ := h.source.log.call hstep hc hu (by omega)
      have hrecs : hist ++ cur <+: hist ++ (cur ++ recs) := by
        rw [← append_assoc]
        exact prefix_append _ _
      refine ⟨hist, cur ++ recs, h.source.step hdue hstep hlog, h.line.frame,
        h.place.extend rfl ?_ hrecs (hseen _ hs) fun k P hk => hk⟩
      change n.primary.wal.log <+: s'.wal.log
      rw [hlog.log, h.source.log.log, ← append_assoc, encode_all_append (hist ++ cur)]
      exact prefix_append _ _

theorem checkpoint (hs : n.step .checkpoint = some n') (hok : stream_ok n .checkpoint) :
    NetInv file n' [] [] R t n.logged.length := by
  rw [Net.step] at hs
  split at hs
  · next hdue =>
    cases hs
    have hin := h.source.idle hdue
    exact ⟨h.source.checkpoint hin, h.line.frame,
      h.place.checkpoint h.source h.line.unfinished hin hok⟩
  · cases hs

/-- The parts of the primary are as they were. -/
theorem arrive {sock log : List UInt8} {r : Replica}
    (hline : Line file { n with sock := sock, standby_log := log, standby := r } R t) :
    NetInv file { n with sock := sock, standby_log := log, standby := r } hist cur R t j :=
  ⟨⟨h.source.log, h.source.idle, h.source.done, h.source.asc, h.source.below, h.source.pos⟩, hline,
    h.place⟩

theorem step {a : NetCall} (hs : n.step a = some n') (hok : stream_ok n a) :
    ∃ hist' cur' R' t' j', NetInv file n' hist' cur' R' t' j' := by
  cases a with
  | call c =>
    obtain ⟨hist', cur', h'⟩ := h.call hs hok
    exact ⟨hist', cur', R, t, j, h'⟩
  | checkpoint => exact ⟨[], [], R, t, _, h.checkpoint hs hok⟩
  | send =>
    obtain ⟨R', t', h'⟩ := h.send hs
    exact ⟨hist, cur, R', t', j, h'⟩
  | recv header_sizes body_sizes =>
    have hline := h.line.recv hs
    obtain ⟨x, -, rfl⟩ := map_eq_some_iff.1 hs
    exact ⟨hist, cur, R, t, j, h.arrive hline⟩
  | apply =>
    have hline := h.line.apply hs
    cases hs
    exact ⟨hist, cur, R, t, j, h.arrive hline⟩

omit h in
theorem opened {d : Disk} (hmax : d.data.length ≤ MAX_PAGES) (file : List Page) :
    NetInv file (net_open d file) [] [] [] [] 0 where
  source :=
    { log := LogInv.opened hmax
      idle := fun h => by cases h
      done := rfl
      asc := ⟨by simp [net_open], List.Pairwise.nil⟩
      below := by simp [net_open]
      pos := Nat.one_pos }
  line :=
    { wire := ⟨[], rfl, by simp, rfl⟩
      unfinished := Unfinished.nil
      sound := by simp
      bounded := by
        intro rs hrs
        rw [prefix_nil.1 hrs]
        exact Nat.zero_le _
      caught := ⟨[], CaughtUp.opened file, prefix_refl _, Nat.zero_le _⟩ }
  place := .inl ⟨[], 0, Nat.zero_le _, prefix_refl _, rfl,
    ⟨List.nil_prefix, rfl, rfl, rfl, le_rfl, le_rfl⟩⟩

/-- What the standby has written is a beginning of what was committed. -/
theorem writes_isPrefix : n.standby.writes <+: n.logged.flatMap Prod.snd := by
  obtain ⟨A, hA, ⟨Q, rfl⟩, -⟩ := h.line.caught
  obtain ⟨P, k, hk⟩ := h.place.tracks
  have hout : n.standby.writes = (feed .init A).out := by rw [hA.state]
  have hmore := feed_out (feed .init A) Q
  rw [← feed_append, hk.out] at hmore
  rw [hout]
  refine hmore.trans ?_
  nth_rewrite 2 [← take_append_drop k n.logged]
  rw [flatMap_append]
  exact prefix_append _ _

/-- With nothing left to send and nothing on the way, the reader has the whole
    history. -/
theorem drained (hsend : (walsender_send n.primary.wal.log n.sent_off).2.2 = 0)
    (hsock : n.sock = []) :
    (replica_apply n.standby n.standby_log).1.writes = n.logged.flatMap Prod.snd := by
  have hall : ∃ P, Follows n.logged j n.logged.length P R := by
    rcases lt_or_ge n.primary.wal.log.length n.sent_off with hlt | hge
    · -- the log is empty, so the history ends before it
      rw [walsender_send_restart hlt] at hsend
      obtain ⟨f, -, hspec, -, -, hend⟩ := walsender_send_spec
        (Nat.zero_le n.primary.wal.log.length)
      rw [hspec] at hsend
      have hfull := (h.place.restart hlt).full
        ⟨h.source.log, h.source.idle, h.source.done, h.source.asc, h.source.below, h.source.pos⟩
        h.line.unfinished (hend (length_eq_zero_iff.1 hsend))
      exact ⟨_, hfull.2⟩
    · obtain ⟨f, -, hspec, -, -, hend⟩ := walsender_send_spec hge
      rw [hspec] at hsend
      exact ⟨_, (h.place.full h.source h.line.unfinished
        (hend (length_eq_zero_iff.1 hsend))).2⟩
  obtain ⟨P, hk⟩ := hall
  obtain ⟨frames, hframes, -, hlog⟩ := h.line.wire
  have hnone : frames = [] := by
    rcases frames with _ | ⟨f, frames⟩
    · rfl
    · rw [hsock] at hframes
      simp [frame_bytes_ne_nil] at hframes
  obtain ⟨R', t', -, -, -, hfull, hwrites, -⟩ := h.line.apply_arrived
  have hR := hfull (by simpa [hnone] using hlog)
  rw [hwrites, hR, hk.out, take_length]

end NetInv

/-- In every run whose cuts meet `stream_ok`, the standby writes the committed
    after-images in commit order and nothing else, and after the stream is
    drained it has written all of them. -/
theorem stream_applies_committed {d : Disk} (hmax : d.data.length ≤ MAX_PAGES) {file : List Page}
    {as : List NetCall} {n : Net} (hrun : Steps Net.step stream_ok (net_open d file) as n) :
    n.standby.writes <+: n.logged.flatMap Prod.snd ∧
    n.standby.data.file = write_all Page.zero file n.standby.writes ∧
    ((walsender_send n.primary.wal.log n.sent_off).2.2 = 0 → n.sock = [] →
      (replica_apply n.standby n.standby_log).1.writes = n.logged.flatMap Prod.snd) := by
  obtain ⟨hist, cur, R, t, j, h⟩ := hrun.invariant
    (fun n => ∃ hist cur R t j, NetInv file n hist cur R t j)
    (fun n a n' ⟨_, _, _, _, _, h⟩ hok hs => h.step hs hok)
    ⟨_, _, _, _, _, NetInv.opened hmax file⟩
  obtain ⟨A, hA, -⟩ := h.line.caught
  exact ⟨h.writes_isPrefix, hA.data, h.drained⟩

/-- A transaction is rolled back unsent, another one is committed and streamed. -/
def streamed_calls : List NetCall :=
  [.call .alloc, .call .begin, .call (.steal 0 Page.zero), .call .undo,
    .call .alloc, .call .begin, .call (.stage 0 Page.zero), .call .commit,
    .send, .recv [3] [1000]]

/-- The primary works before anything is sent. -/
def before_sending (n : Net) : NetCall → Bool
  | .call _ => n.sent_off == 0 && decide (n.primary.wal.next_lsn + WAL_MAX_STAGED + 2 ≤ 2 ^ 64)
  | .checkpoint => false
  | _ => true

theorem before_sending_ok {n : Net} {a : NetCall} (h : before_sending n a = true) :
    stream_ok n a := by
  cases a with
  | call c =>
    simp only [before_sending, and_eq_true, beq_iff_eq, decide_eq_true_eq] at h
    exact ⟨h.2, by omega, by omega⟩
  | checkpoint => cases h
  | _ => trivial

set_option maxRecDepth 100000 in
theorem run_streamed_calls :
    (run (fun n a => if before_sending n a = true then n.step a else none) (net_open ⟨[], []⟩ [])
      streamed_calls).any (fun n =>
        (walsender_send n.primary.wal.log n.sent_off).2.2 == 0 && n.sock.isEmpty &&
        !(n.logged.flatMap Prod.snd).isEmpty) = true := by
  decide +kernel

theorem stream_applies_committed_one :
    ∃ n, Steps Net.step stream_ok (net_open ⟨[], []⟩ []) streamed_calls n ∧
      n.logged.flatMap Prod.snd ≠ [] ∧
      (replica_apply n.standby n.standby_log).1.writes = n.logged.flatMap Prod.snd := by
  obtain ⟨n, hrun, hn⟩ := (any_eq_true _ _).1 run_streamed_calls
  simp only [and_eq_true, beq_iff_eq, List.isEmpty_iff, not_eq_true'] at hn
  obtain ⟨⟨hsend, hsock⟩, hlogged⟩ := hn
  have hsteps := (Steps.of_guarded hrun).mono fun _ _ => before_sending_ok
  exact ⟨n, hsteps, by rintro h; simp [h] at hlogged,
    (stream_applies_committed (Nat.zero_le _) hsteps).2.2 hsend hsock⟩

/-- A stolen page is streamed and its transaction rolled back; before the sender
    looks again, a commit grows the log past the old offset. -/
def regrown_calls : List NetCall :=
  [.call .alloc, .call .alloc, .call .begin, .call (.steal 0 Page.zero), .send, .call .undo,
    .call .begin, .call (.stage 0 Page.zero), .call (.stage 1 Page.zero), .call .commit,
    .send, .recv [] [], .recv [] []]

set_option maxRecDepth 100000 in
theorem run_regrown_calls :
    (run Net.step (net_open ⟨[], []⟩ []) regrown_calls).any (fun n =>
      (walsender_send n.primary.wal.log n.sent_off).2.2 == 0 && n.sock.isEmpty &&
      !n.primary.in_txn && (replica_apply n.standby n.standby_log).1.writes.isEmpty &&
      !(n.logged.flatMap Prod.snd).isEmpty) = true := by
  decide +kernel

/-- The sender goes on in the middle of a record: the standby's log has an
    image where a record should begin, and nothing of the commit is applied. -/
theorem stream_loses_commit :
    ¬ ∀ (d : Disk) (file : List Page) (as : List NetCall) (n : Net), d.data.length ≤ MAX_PAGES →
      Steps Net.step (fun _ _ => True) (net_open d file) as n →
        n.standby.writes <+: n.logged.flatMap Prod.snd ∧
        ((walsender_send n.primary.wal.log n.sent_off).2.2 = 0 → n.sock = [] →
          n.primary.in_txn = false →
          (replica_apply n.standby n.standby_log).1.writes = n.logged.flatMap Prod.snd) := by
  intro hall
  obtain ⟨n, hrun, hn⟩ := (any_eq_true _ _).1 run_regrown_calls
  simp only [and_eq_true, beq_iff_eq, List.isEmpty_iff, not_eq_true'] at hn
  obtain ⟨⟨⟨⟨hsend, hsock⟩, hidle⟩, hwrites⟩, hlogged⟩ := hn
  have h := (hall ⟨[], []⟩ [] regrown_calls n (Nat.zero_le _)
    (Steps.of_run (fun _ _ _ => trivial) hrun)).2 hsend hsock hidle
  rw [hwrites] at h
  rw [← h] at hlogged
  cases hlogged

end MiniDb
