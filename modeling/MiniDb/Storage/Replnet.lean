import MiniDb.Storage.LogRecords

/-! # Streaming the log (replnet.c)

  `walsender_send` ships what the log has behind a byte offset, one frame at a
  time; `walreceiver_recv` appends a frame to the standby's own log, which
  `replica_apply` then reads.  The offset counts bytes of a log that a rollback
  or a checkpoint may cut: a log that is shorter than the offset is sent again
  from its start, one that was cut and has grown past the offset goes on in the
  middle of something.

  `Net` is the whole system with the history of what the primary committed.
  `Follows` says how far a reader of the stream has come in that history. -/

namespace MiniDb

open Framework List

def REPLNET_CHUNK_MAX : Nat := 1 <<< 20

/-! ### Sender and receiver -/

/-- The new offset, the bytes written to the socket, and the return value. -/
def walsender_send (log : List UInt8) (sent_off : Nat) : Nat × List UInt8 × Nat :=
  let off := if log.length < sent_off then 0 else sent_off
  let avail := log.length - off
  if avail = 0 then (off, [], 0)
  else
    let chunk := min avail REPLNET_CHUNK_MAX
    (off + chunk, le_bytes 8 chunk ++ (log.drop off).take chunk, chunk)

/-- `read_exact` on the socket.  Each `read` returns some of what is there:
    `sizes` are the lengths it chooses.  `none`: the call waits for more. -/
def sock_read : Nat → List Nat → Nat → List UInt8 → Option (List UInt8 × List UInt8)
  | _, _, 0, sock => some ([], sock)
  | 0, _, _ + 1, _ => none
  | fuel + 1, sizes, n + 1, sock =>
    if sock = [] then none
    else
      let r := min (max 1 (sizes.headD (n + 1))) (min (n + 1) sock.length)
      (sock_read fuel sizes.tail (n + 1 - r) (sock.drop r)).map fun x => (sock.take r ++ x.1, x.2)

/-- The return value, what is left in the socket, and the standby's log. -/
def walreceiver_recv (header_sizes body_sizes : List Nat) (sock log : List UInt8) :
    Option (Int × List UInt8 × List UInt8) :=
  (sock_read 8 header_sizes 8 sock).bind fun x =>
    let len := le_nat x.1
    if len = 0 then some (0, x.2, log)
    else if len > REPLNET_CHUNK_MAX then some (-1, x.2, log)
    else (sock_read len body_sizes len x.2).map fun y => (len, y.2, log ++ y.1)

/-- However the bytes are split, exactly the first `n` are read. -/
theorem sock_read_eq (fuel : Nat) (sizes : List Nat) {n : Nat} (hfuel : n ≤ fuel)
    (sock : List UInt8) :
    sock_read fuel sizes n sock =
      if n ≤ sock.length then some (sock.take n, sock.drop n) else none := by
  induction fuel generalizing sizes n sock with
  | zero =>
    obtain rfl : n = 0 := by omega
    simp [sock_read]
  | succ fuel ih =>
    cases n with
    | zero => simp [sock_read]
    | succ n =>
      rw [sock_read]
      by_cases hnil : sock = []
      · simp [hnil]
      · have hpos : 0 < sock.length := length_pos_iff.2 hnil
        rw [if_neg hnil]
        -- a read returns at least one byte and at most what is asked for
        obtain ⟨r, hr⟩ : ∃ r, r = min (max 1 (sizes.headD (n + 1))) (min (n + 1) sock.length) :=
          ⟨_, rfl⟩
        have hlow : 1 ≤ r := by omega
        have hhigh : r ≤ n + 1 ∧ r ≤ sock.length := by omega
        simp only [← hr]
        rw [ih sizes.tail (by omega)]
        by_cases hle : n + 1 ≤ sock.length
        · have hle' : n + 1 - r ≤ (sock.drop r).length := by simp; omega
          rw [if_pos hle, if_pos hle']
          simp only [Option.map_some, drop_drop, Option.some.injEq, Prod.mk.injEq]
          refine ⟨?_, by congr 1; omega⟩
          rw [← take_add]
          congr 1
          omega
        · have hle' : ¬ n + 1 - r ≤ (sock.drop r).length := by simp; omega
          rw [if_neg hle, if_neg hle']
          rfl

/-- A frame on the socket. -/
def frame_bytes (f : List UInt8) : List UInt8 := le_bytes 8 f.length ++ f

/-- A whole frame is received as it was sent. -/
theorem walreceiver_recv_frame (hs bs : List Nat) {f : List UInt8} (hpos : f ≠ [])
    (hmax : f.length ≤ REPLNET_CHUNK_MAX) (rest log : List UInt8) :
    walreceiver_recv hs bs (frame_bytes f ++ rest) log =
      some ((f.length : Int), rest, log ++ f) := by
  have hlen : 0 < f.length := length_pos_iff.2 hpos
  have hsmall : f.length < 256 ^ 8 := hmax.trans_lt (by decide)
  have h8 : sock_read 8 hs 8 (frame_bytes f ++ rest) = some (le_bytes 8 f.length, f ++ rest) := by
    rw [sock_read_eq 8 hs le_rfl, if_pos (by simp [frame_bytes])]
    simp only [frame_bytes, append_assoc, Option.some.injEq, Prod.mk.injEq]
    exact ⟨take_left' (le_bytes_length 8 _), drop_left' (le_bytes_length 8 _)⟩
  have hbody : sock_read f.length bs f.length (f ++ rest) = some (f, rest) := by
    rw [sock_read_eq f.length bs le_rfl, if_pos (by simp), take_left, drop_left]
  rw [walreceiver_recv, h8]
  simp only [Option.bind_some, le_nat_le_bytes hsmall]
  rw [if_neg (by omega), if_neg (by omega), hbody]
  rfl

/-- One call sends the next part of the log as a frame, or nothing at its end. -/
theorem walsender_send_spec {log : List UInt8} {off : Nat} (hle : off ≤ log.length) :
    ∃ f, f.length ≤ REPLNET_CHUNK_MAX ∧
      walsender_send log off = (off + f.length, if f = [] then [] else frame_bytes f, f.length) ∧
      log.take (off + f.length) = log.take off ++ f ∧ off + f.length ≤ log.length ∧
      (f = [] → off = log.length) := by
  by_cases havail : log.length - off = 0
  · refine ⟨[], Nat.zero_le _, ?_, by simp, by simpa using hle, fun _ => by omega⟩
    simp only [walsender_send, if_neg (not_lt.2 hle), if_pos havail]
    simp
  · obtain ⟨chunk, hchunk⟩ : ∃ m, m = min (log.length - off) REPLNET_CHUNK_MAX := ⟨_, rfl⟩
    have hpos : 0 < chunk := by
      have : 0 < REPLNET_CHUNK_MAX := by decide
      omega
    have hlen : ((log.drop off).take chunk).length = chunk := by
      simp
      omega
    have hne : (log.drop off).take chunk ≠ [] := by
      intro hnil
      rw [hnil] at hlen
      simp at hlen
      omega
    refine ⟨(log.drop off).take chunk, by omega, ?_, ?_, by omega, fun h => absurd h hne⟩
    · simp only [walsender_send, if_neg (not_lt.2 hle), if_neg havail, if_neg hne, hlen,
        frame_bytes, ← hchunk]
    · rw [hlen, take_add]

/-- A log that was cut is sent from its start. -/
theorem walsender_send_restart {log : List UInt8} {off : Nat} (hlt : log.length < off) :
    walsender_send log off = walsender_send log 0 := by
  simp only [walsender_send, if_pos hlt, if_neg (Nat.not_lt_zero _)]

/-! ### Cutting an encoded log -/

variable {t : List UInt8}

theorem Unfinished.take (h : Unfinished t) (m : Nat) : Unfinished (t.take m) := by
  obtain ⟨r, hpre, hlen⟩ := h
  exact ⟨r, (List.take_prefix m t).trans hpre, (length_take_le' m t).trans_lt hlen⟩

/-- The first `m` bytes are whole records and an unfinished one. -/
theorem take_encode (rs : List Rec) (ht : Unfinished t) (m : Nat) :
    ∃ rs' t', (encode_all rs ++ t).take m = encode_all rs' ++ t' ∧ Unfinished t' ∧ rs' <+: rs ∧
      ∀ A, A <+: rs → (encode_all A).length ≤ m → A <+: rs' := by
  induction rs generalizing m with
  | nil => exact ⟨[], t.take m, rfl, ht.take m, prefix_refl _, fun A hA _ => hA⟩
  | cons r rs ih =>
    rw [encode_all_cons, append_assoc, take_append]
    by_cases hm : m < r.encode.length
    · refine ⟨[], r.encode.take m, ?_, ⟨r, take_prefix _ _, by simpa using hm⟩,
        nil_prefix, fun A hA hlen => ?_⟩
      · simp [Nat.sub_eq_zero_of_le hm.le]
      · -- a first record would not fit
        rcases A with _ | ⟨a, A⟩
        · exact prefix_refl _
        · obtain ⟨rfl, -⟩ := cons_prefix_cons.1 hA
          simp at hlen
          omega
    · obtain ⟨rs', t', heq, ht', hpre, hall⟩ := ih (m - r.encode.length)
      refine ⟨r :: rs', t', ?_, ht', cons_prefix_cons.2 ⟨rfl, hpre⟩, fun A hA hlen => ?_⟩
      · rw [heq, take_of_length_le (by omega), encode_all_cons, append_assoc]
      · rcases A with _ | ⟨a, A⟩
        · exact nil_prefix
        · obtain ⟨rfl, hA'⟩ := cons_prefix_cons.1 hA
          simp at hlen
          exact cons_prefix_cons.2 ⟨rfl, hall A hA' (by omega)⟩

/-- The first byte of a record determines its length. -/
theorem encode_length_of_isPrefix {r x : Rec} (hr : r.encode <+: t)
    (hx : t <+: x.encode) : r.encode.length = x.encode.length := by
  have hpre := hr.trans hx
  cases r <;> cases x <;> have htype := (cons_prefix_cons.1 hpre).1 <;>
    simp_all [Rec.encode, Page.size, REC_PAGE, REC_COMMIT, REC_BEGIN, REC_UNDO]

/-- Whole records have no unfinished one at their end. -/
theorem unfinished_of_encode {rs P : List Rec} (ht : Unfinished t)
    (h : encode_all rs = encode_all P ++ t) : t = [] := by
  induction P generalizing rs with
  | nil =>
    rcases rs with _ | ⟨r, rs⟩
    · exact h.symm
    · -- `t` would begin with a whole record and be shorter than one of the same kind
      obtain ⟨x, hpre, hlen⟩ := ht
      rw [encode_all_nil, nil_append] at h
      have hr : r.encode <+: t := h ▸ prefix_append _ _
      have := encode_length_of_isPrefix hr hpre
      have := hr.length_le
      omega
  | cons p P ih =>
    rcases rs with _ | ⟨r, rs⟩
    · have := p.encode_length_pos
      have hlen := congrArg List.length h
      simp at hlen
      omega
    · rw [encode_all_cons, encode_all_cons, append_assoc] at h
      have hlen : r.encode.length = p.encode.length := by
        rcases prefix_or_prefix_of_prefix (prefix_append r.encode (encode_all rs))
          (h ▸ prefix_append p.encode _) with hrp | hpr
        · exact encode_length_of_isPrefix hrp (prefix_refl _)
        · exact (encode_length_of_isPrefix hpr (prefix_refl _)).symm
      exact ih (append_inj h hlen).2

/-! ### Following the history -/

/-- The number of the last segment, 0 when there is none. -/
def last_lsn (H : List (Nat × List StagedPage)) : Nat := (H.getLast?.map Prod.fst).getD 0

variable {H : List (Nat × List StagedPage)}

theorem last_lsn_take_succ {k : Nat} (h : k < H.length) :
    last_lsn (H.take (k + 1)) = H[k].1 := by
  have htake : H.take (k + 1) = H.take k ++ [H[k]] := by
    rw [take_append_getElem]
  rw [last_lsn, htake, getLast?_append]
  simp

/-- Numbers from 1 on, upwards. -/
structure LsnsUp (H : List (Nat × List StagedPage)) : Prop where
  pos : ∀ x ∈ H, 0 < x.1
  lt : H.Pairwise fun a b => a.1 < b.1

theorem LsnsUp.le_last (h : LsnsUp H) {i k : Nat}
    (hi : i < k) (hk : k ≤ H.length) : (H[i]).1 ≤ last_lsn (H.take k) := by
  obtain ⟨k, rfl⟩ : ∃ m, k = m + 1 := ⟨k - 1, by omega⟩
  rw [last_lsn_take_succ (by omega)]
  rcases Nat.eq_or_lt_of_le (Nat.le_of_lt_succ hi) with rfl | hlt
  · exact le_rfl
  · exact (pairwise_iff_getElem.1 h.lt i k (by omega) (by omega) hlt).le

theorem LsnsUp.last_lt (h : LsnsUp H) {k : Nat}
    (hk : k < H.length) : last_lsn (H.take k) < (H[k]).1 := by
  rcases k with _ | k
  · exact h.pos _ (getElem_mem hk)
  · rw [last_lsn_take_succ (by omega)]
    exact pairwise_iff_getElem.1 h.lt k (k + 1) (by omega) hk (Nat.lt_succ_self k)

theorem LsnsUp.snoc (h : LsnsUp H)
    {x : Nat × List StagedPage} (hpos : 0 < x.1) (hlt : ∀ y ∈ H, y.1 < x.1) :
    LsnsUp (H ++ [x]) where
  pos y hy := by
    rcases mem_append.1 hy with hy | hy
    · exact h.pos y hy
    · rwa [mem_singleton.1 hy]
  lt := by
    refine pairwise_append.2 ⟨h.lt, pairwise_singleton _ _, fun y hy z hz => ?_⟩
    rw [mem_singleton.1 hz]
    exact hlt y hy

/-- A reader has got the records `R`, of which `P` are the part of the present
    log that was sent.  The log begins with segment `j` of the history `H`; the
    reader has written the first `k` segments. -/
structure Follows (H : List (Nat × List StagedPage)) (j k : Nat) (P R : List Rec) : Prop where
  done : (segs P).done <+: H.drop j
  pend : (feed .init R).pend = (segs P).pend
  out : (feed .init R).out = (H.take k).flatMap Prod.snd
  lsn : (feed .init R).lsn = last_lsn (H.take k)
  le : j + (segs P).done.length ≤ k
  len : k ≤ H.length

theorem feed_snoc (f : Feed) (rs : List Rec) (r : Rec) : feed f (rs ++ [r]) = (feed f rs).next r := by
  simp [feed]

namespace Follows

variable {H : List (Nat × List StagedPage)} {j k : Nat} {P R : List Rec}

variable (h : Follows H j k P R)

include h

/-- A record that is no marker. -/
theorem keep {q : Rec} (hsegs : (segs (P ++ [q])).done = (segs P).done)
    (hfeed : feed .init (R ++ [q]) =
      ⟨(feed .init R).lsn, (segs (P ++ [q])).pend, (feed .init R).out⟩) :
    Follows H j k (P ++ [q]) (R ++ [q]) where
  done := hsegs ▸ h.done
  pend := by rw [hfeed]
  out := by
    rw [hfeed]
    exact h.out
  lsn := by
    rw [hfeed]
    exact h.lsn
  le := hsegs ▸ h.le
  len := h.len

/-- One more record: a marker of a segment already written is skipped, the
    next one is written. -/
theorem next (hasc : LsnsUp H) {q : Rec} (hdone : (segs (P ++ [q])).done <+: H.drop j) :
    ∃ k', Follows H j k' (P ++ [q]) (R ++ [q]) := by
  cases q with
  | page lsn pid data =>
    exact ⟨k, h.keep (by rw [segs_snoc]; rfl) (by rw [feed_snoc, segs_snoc, Segs.next, ← h.pend]; rfl)⟩
  | begin lsn base =>
    exact ⟨k, h.keep (by rw [segs_snoc]; rfl) (by rw [feed_snoc, segs_snoc, Segs.next, ← h.pend]; rfl)⟩
  | undo lsn pid before =>
    exact ⟨k, h.keep (by rw [segs_snoc]; rfl) (by rw [feed_snoc, segs_snoc, Segs.next, ← h.pend]; rfl)⟩
  | commit lsn =>
    -- the marker closes segment `j + c` of the history
    have hnext : segs (P ++ [.commit lsn]) = ⟨(segs P).done ++ [(lsn, (segs P).pend)], []⟩ :=
      segs_snoc P _
    obtain ⟨c, hc⟩ : ∃ c, c = (segs P).done.length := ⟨_, rfl⟩
    have hle : j + c ≤ k := hc ▸ h.le
    have hpre := hdone
    rw [hnext] at hpre
    obtain ⟨hlt, heq⟩ : ∃ hlt : j + c < H.length, H[j + c] = (lsn, (segs P).pend) := by
      have hlen := hpre.length_le
      simp only [length_append, length_cons, length_nil, length_drop] at hlen
      refine ⟨by omega, ?_⟩
      have := List.IsPrefix.getElem hpre (i := c) (by simp [hc])
      rw [getElem_append_right (by omega)] at this
      simpa [hc] using this.symm
    rcases lt_or_ge (j + c) k with hold | hnew
    · have hskip : ¬ (feed .init R).lsn < lsn := by
        have := hasc.le_last hold h.len
        rw [heq] at this
        rw [h.lsn]
        omega
      have hfeed : feed .init (R ++ [.commit lsn]) = { feed .init R with pend := [] } := by
        rw [feed_snoc, Feed.next, if_neg hskip]
      refine ⟨k, hdone, ?_, ?_, ?_, ?_, h.len⟩
      · rw [hfeed, hnext]
      · rw [hfeed]
        exact h.out
      · rw [hfeed]
        exact h.lsn
      · rw [hnext]
        simp only [length_append, length_cons, length_nil, ← hc]
        omega
    · obtain rfl : k = j + c := by omega
      have hacc : (feed .init R).lsn < lsn := by
        have := hasc.last_lt hlt
        rw [heq] at this
        rwa [h.lsn]
      have hfeed : feed .init (R ++ [.commit lsn]) =
          ⟨lsn, [], (feed .init R).out ++ (feed .init R).pend⟩ := by
        rw [feed_snoc, Feed.next, if_pos hacc]
      have htake : H.take (j + c + 1) = H.take (j + c) ++ [H[j + c]] := by
        rw [take_append_getElem]
      refine ⟨j + c + 1, hdone, ?_, ?_, ?_, ?_, hlt⟩
      · rw [hfeed, hnext]
      · rw [hfeed, htake, flatMap_append, heq, h.out, h.pend]
        simp
      · rw [hfeed, last_lsn_take_succ hlt, heq]
      · rw [hnext]
        simp only [length_append, length_cons, length_nil, ← hc]
        omega

/-- Many more records. -/
theorem append (hasc : LsnsUp H) {Q : List Rec} (hdone : (segs (P ++ Q)).done <+: H.drop j) :
    ∃ k', Follows H j k' (P ++ Q) (R ++ Q) := by
  induction Q using List.reverseRecOn with
  | nil => exact ⟨k, by simpa using h⟩
  | append_singleton Q q ih =>
    rw [← append_assoc] at hdone
    obtain ⟨k', h'⟩ := ih ((segs_done_isPrefix (prefix_append _ _)).trans hdone)
    obtain ⟨k'', h''⟩ := h'.next hasc hdone
    exact ⟨k'', by simpa using h''⟩

/-- New records of a log with short segments are read with short segments. -/
theorem bounded (hasc : LsnsUp H) {Q log : List Rec} (hlog : P ++ Q <+: log)
    (hdone : (segs log).done <+: H.drop j)
    (hroom : ∀ rs, rs <+: log → (segs rs).pend.length ≤ WAL_MAX_STAGED) :
    Bounded (feed .init R) Q := by
  intro q hq
  have hpre : P ++ q <+: log := ((prefix_append_right_inj P).2 hq).trans hlog
  obtain ⟨k', h'⟩ := h.append hasc ((segs_done_isPrefix hpre).trans hdone)
  rw [← feed_append, h'.pend]
  exact hroom _ hpre

/-- The history grows by a segment that was not sent. -/
theorem grow (x : Nat × List StagedPage) :
    Follows (H ++ [x]) j k P R where
  done := by
    rw [drop_append]
    exact h.done.trans (prefix_append _ _)
  __ := h
  out := by
    rw [take_append_of_le_length h.len]
    exact h.out
  lsn := by
    rw [take_append_of_le_length h.len]
    exact h.lsn
  len := by
    rw [length_append]
    exact h.len.trans (Nat.le_add_right _ _)

/-- The log was cut to segments that the reader has in full. -/
theorem cut (hpend : (segs P).pend = []) {j' : Nat} (hj : j' ≤ k) :
    Follows H j' k [] R where
  done := nil_prefix
  pend := h.pend.trans hpend
  __ := h
  le := hj

end Follows

/-! ### The system -/

structure Net where
  primary : Session
  /-- A commit has outgrown the log's limit and its checkpoint is to come. -/
  due : Bool
  sent_off : Nat
  /-- Bytes on the way. -/
  sock : List UInt8
  standby_log : List UInt8
  standby : Replica
  /-- What the primary has committed since streaming started. -/
  logged : List (Nat × List StagedPage)

inductive NetCall where
  | call (c : Call)
  | checkpoint
  | send
  | recv (header_sizes body_sizes : List Nat)
  | apply

/-- Streaming starts with a primary that was just opened and a standby without
    a log. -/
def net_open (d : Disk) (file : List Page) : Net :=
  { primary := session_open d
    due := false
    sent_off := 0
    sock := []
    standby_log := []
    standby := replica_open file
    logged := [] }

/-- A call of the primary.  A commit stops before its checkpoint. -/
def Net.call (n : Net) (c : Call) : Option Net :=
  if n.due then none
  else
    match c with
    | .commit =>
      if n.primary.in_txn ∧ (wal_commit n.primary.wal).2 = 0 then
        some { n with
          primary := n.primary.committed_open
          due := checkpoint_due (wal_commit_open n.primary.wal)
          logged := n.logged ++ [(n.primary.wal.next_lsn + n.primary.wal.staged.length,
            n.primary.wal.staged)] }
      else none
    | c => (n.primary.step c).map fun s => { n with primary := s }

def Net.step (n : Net) : NetCall → Option Net
  | .call c => n.call c
  | .checkpoint =>
    if n.due then
      some { n with primary := { n.primary with wal := wal_checkpoint n.primary.wal }, due := false }
    else none
  | .send =>
    let r := walsender_send n.primary.wal.log n.sent_off
    some { n with sent_off := r.1, sock := n.sock ++ r.2.1 }
  | .recv hs bs =>
    (walreceiver_recv hs bs n.sock n.standby_log).map fun x =>
      { n with sock := x.2.1, standby_log := x.2.2 }
  | .apply => some { n with standby := (replica_apply n.standby n.standby_log).1 }

/-- When a cut of the log does no harm.  A rollback cuts at or behind the
    sender's offset, or the sender stands between two records; a log that was
    cut below the offset does not grow past it before the sender has seen it;
    a checkpoint waits until all was sent.  The numbers fit 64 bits. -/
def stream_ok (n : Net) : NetCall → Prop
  | .call c =>
    n.primary.wal.next_lsn + WAL_MAX_STAGED + 2 ≤ 2 ^ 64 ∧
    (c = .undo → n.primary.wal.stole = true → n.primary.wal.txn_log_start < n.sent_off →
      ∃ rs, n.primary.wal.log.take n.sent_off = encode_all rs) ∧
    ∀ n', n.call c = some n' → n.primary.wal.log.length < n.sent_off →
      n'.primary.wal.log.length < n.sent_off
  | .checkpoint => n.sent_off = n.primary.wal.log.length
  | _ => True

end MiniDb
