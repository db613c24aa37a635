import MiniDb.Raft.Frames

/-! # Replication

  Taking over the entries of an `AppendEntries` is `Proto.accept`: the loop
  leaves the log as it is when it has the entries already, and otherwise cuts
  it off where it first differs.  Installing a snapshot is `Proto.accept` as
  well, but only when the log it throws away has nothing behind the snapshot. -/

namespace MiniDb

open Framework List Function

section Log

variable {p : Proto Nat RaftEntry} {r : Raft} {L M : List RaftEntry}

/-- Cut the log off behind index `j` and append `e`. -/
theorem LogRel.splice (h : LogRel r L) {j : Nat} (hb : r.log_base ≤ j) (hj : j ≤ L.length)
    (e : RaftEntry) :
    LogRel { r with entries := r.entries.take (j - r.log_base) ++ [e] } (L.take j ++ [e]) := by
  have hlen : (L.take j).length = j := length_take_of_le hj
  refine h.replace ?_ ?_ ?_
  · rw [take_append_of_le_length (by omega), take_take, Nat.min_eq_left hb]
  · simp only [length_append, hlen]
    omega
  · rw [drop_append_of_le_length (by omega), drop_take, h.entries]

/-- What one turn of the loop does to the log: `j` entries of `M` are taken
    over, and `e` is the next. -/
theorem adopt_succ (hL : Backed p L) (hM : Backed p M) {j : Nat} {e : RaftEntry}
    (he : M[j]? = some e) (hnot : ¬M.take (j + 1) <+: L) :
    (adopt L (M.take j)).take j ++ [e] = M.take (j + 1) ∧
      (j + 1 ≤ (adopt L (M.take j)).length →
        last_term ((adopt L (M.take j)).take (j + 1)) ≠ e.term) := by
  have hj : j < M.length := (List.getElem?_eq_some_iff.mp he).1
  have htake : (adopt L (M.take j)).take j = M.take j := by
    have hpre := prefix_adopt L (M.take j)
    rw [take_eq_of_isPrefix hpre (by rw [length_take_of_le hj.le]), take_take, min_self]
  refine ⟨?_, ?_⟩
  · rw [htake, take_add_one, he]
    rfl
  · intro hlen hterm
    by_cases hpre : M.take j <+: L
    · -- by log matching the log would have the next entry as well
      rw [adopt_of_isPrefix hpre] at hlen hterm
      have heq := hL.take_eq hM hlen hj (by rw [hterm, last_term_take he]; rfl)
      exact hnot (heq ▸ take_prefix _ _)
    · rw [adopt_of_not_isPrefix hpre, length_take_of_le hj.le] at hlen
      omega

theorem append_loop_spec (hL : Backed p L) (hM : Backed p M)
    (hplain : ∀ e ∈ M, e.is_config = false) (hlen : r.log_base ≤ L.length)
    (hsnap : L.take r.log_base <+: M) :
    ∀ (es ents : List RaftEntry) (j : Nat) (truncated : Bool),
      LogRel { r with entries := ents } (adopt L (M.take j)) →
      j + es.length ≤ M.length → es = (M.drop j).take es.length →
      ∃ ents' truncated', append_loop { r with entries := ents } truncated (j + 1) es =
          ({ r with entries := ents' }, truncated') ∧
        LogRel { r with entries := ents' } (adopt L (M.take (j + es.length))) := by
  intro es
  induction es with
  | nil =>
    intro ents j truncated hlog _ _
    exact ⟨ents, truncated, rfl, hlog⟩
  | cons e es ih =>
    intro ents j truncated hlog hM_len hes
    rw [length_cons] at hM_len
    have hj : j < M.length := by omega
    have he : M[j]? = some e := by
      have := congrArg (·[0]?) hes
      simpa using this.symm
    have hes' : es = (M.drop (j + 1)).take es.length := by
      rw [drop_eq_getElem_cons hj, length_cons, take_succ_cons] at hes
      exact (List.cons.inj hes).2
    have hnext : j + (e :: es).length = j + 1 + es.length := by
      rw [length_cons]
      omega
    rw [hnext]
    unfold append_loop
    by_cases hpre : M.take (j + 1) <+: L
    · -- the log has the entry: it is skipped
      have hpre' : M.take j <+: L := (take_prefix_take_left (Nat.le_succ j)).trans hpre
      have hlog' : LogRel { r with entries := ents } (adopt L (M.take (j + 1))) := by
        rw [adopt_of_isPrefix hpre]
        rwa [adopt_of_isPrefix hpre'] at hlog
      have hskip := ih ents (j + 1) truncated hlog' (by omega) hes'
      by_cases hbase : j + 1 ≤ r.log_base
      · rw [if_pos hbase]
        exact hskip
      rw [if_neg hbase]
      rw [adopt_of_isPrefix hpre] at hlog'
      have hlast : j + 1 ≤ L.length := by
        have := hpre.length_le
        rwa [length_take_of_le hj] at this
      rw [if_pos (by rw [hlog'.last_index]; exact hlast)]
      have hterm : term_at { r with entries := ents } (j + 1) = e.term := by
        rw [hlog'.term_at (le_of_lt (Nat.lt_of_not_le hbase)) hlast,
          take_eq_of_isPrefix hpre (by rw [length_take_of_le hj]), take_take, min_self,
          last_term_take he]
        rfl
      rw [if_neg (not_not.mpr hterm)]
      exact hskip
    · obtain ⟨hsplice, hterm⟩ := adopt_succ hL hM he hpre
      have hlog' : adopt L (M.take (j + 1)) = M.take (j + 1) := adopt_of_not_isPrefix hpre
      have hconf : e.is_config = false := hplain e (mem_of_getElem? he)
      have hbase : ¬j + 1 ≤ r.log_base := by
        intro hle
        refine hpre ((prefix_of_prefix_length_le (List.take_prefix _ M) hsnap ?_).trans
          (List.take_prefix _ L))
        rw [length_take_of_le hj, length_take_of_le hlen]
        exact hle
      have hreach : j ≤ (adopt L (M.take j)).length := by
        have := (prefix_adopt L (M.take j)).length_le
        rwa [length_take_of_le hj.le] at this
      rw [if_neg hbase]
      by_cases hlast : j + 1 ≤ raft_last_log_index { r with entries := ents }
      · -- the log differs here: it is cut off
        rw [if_pos hlast]
        rw [hlog.last_index] at hlast
        have hdiff : term_at { r with entries := ents } (j + 1) ≠ e.term := by
          rw [hlog.term_at (le_of_lt (Nat.lt_of_not_le hbase)) hlast]
          exact hterm hlast
        rw [if_pos hdiff, log_append_plain hconf]
        refine ih _ (j + 1) true ?_ (by omega) hes'
        have hcut := hlog.splice (j := j) (Nat.le_of_lt_succ (Nat.lt_of_not_le hbase)) hreach e
        rw [hsplice, ← hlog'] at hcut
        have hidx : j + 1 - r.log_base - 1 = j - r.log_base := by omega
        show LogRel { r with entries := ents.take (j + 1 - r.log_base - 1) ++ [e] } _
        rw [hidx]
        exact hcut
      · -- the log ends here
        rw [if_neg hlast, log_append_plain hconf]
        rw [hlog.last_index] at hlast
        refine ih _ (j + 1) truncated ?_ (by omega) hes'
        have hend := hlog.append e
        rw [take_of_length_le (by omega)] at hsplice
        rw [hsplice, ← hlog'] at hend
        exact hend

/-- The log after the entries `(M.drop prev).take k` have been taken over. -/
theorem append_all_spec (hL : Backed p L) (hM : Backed p M) (hplain : Plain p)
    (hr : LogRel r L) (hmask : r.member_mask = r.base_member_mask)
    (hsnap : L.take r.log_base <+: M) {prev : Nat} {es : List RaftEntry}
    (hprev : M.take prev <+: L) (hlen : prev + es.length ≤ M.length)
    (hes : es = (M.drop prev).take es.length) :
    ∃ ents, append_all r prev es = { r with entries := ents } ∧
      LogRel { r with entries := ents } (adopt L (M.take (prev + es.length))) ∧
      ∀ e ∈ ents, e.is_config = false := by
  have hstart : LogRel { r with entries := r.entries } (adopt L (M.take prev)) := by
    rw [adopt_of_isPrefix hprev]
    exact hr
  have hr_free : ∀ e ∈ r.entries, e.is_config = false := by
    rw [hr.entries]
    exact fun e he => hplain.of_backed hL e (mem_of_mem_drop he)
  have hes_free : ∀ e ∈ es, e.is_config = false := by
    rw [hes]
    exact fun e he => hplain.of_backed hM e (mem_of_mem_drop (mem_of_mem_take he))
  obtain ⟨ents, heq, hloop, hfree⟩ := append_all_plain hmask hr_free hes_free prev
  obtain ⟨ents', truncated, heq', hlog⟩ := append_loop_spec hL hM (hplain.of_backed hM) hr.base_le
    hsnap es r.entries prev false hstart hlen hes
  have hsame : ents = ents' := congrArg Raft.entries (hloop.symm.trans (congrArg Prod.fst heq'))
  exact ⟨ents, heq, hsame ▸ hlog, hfree⟩

end Log

/-! ### What the replication messages may do

  Two conditions on the delivery of a message to `r`.  The handlers do not
  check them. -/

/-- An accepted `AppendEntries` moves the commit index only over entries it
    has checked: the commit index lies within the message, or nothing is left
    of the log behind the message. -/
def commit_covered (r : Raft) (msg : RaftMsg) : Bool :=
  match msg.body with
  | .append_entries prev_log_index prev_log_term leader_commit entries _ =>
      decide (r.current_term ≤ msg.term → prev_matches r prev_log_index prev_log_term = true →
        r.commit_index < leader_commit →
        leader_commit ≤ prev_log_index + entries.length ∨
          raft_last_log_index (append_all r prev_log_index entries) ≤
            prev_log_index + entries.length)
  | _ => true

/-- An installed snapshot meets a log that has nothing behind it, or that
    differs from the leader's log at the snapshot. -/
def snapshot_fits (r : Raft) (msg : RaftMsg) : Bool :=
  match msg.body with
  | .install_snapshot last_included_index last_included_term _ _ =>
      decide (r.current_term ≤ msg.term → r.commit_index < last_included_index →
        raft_last_log_index r ≤ last_included_index ∨
          term_at r last_included_index ≠ last_included_term)
  | _ => true

section Handlers

variable {n f : Nat} {K : Scope} {p : Proto Nat RaftEntry} {r : Raft}

theorem following_frame (r : Raft) (u : Nat) :
    (following r u).log_base = r.log_base ∧ (following r u).entries = r.entries ∧
      (following r u).marker = r.marker ∧ (following r u).commit_index = r.commit_index := by
  unfold following step_down_if_higher
  split <;> exact ⟨rfl, rfl, rfl, rfl⟩

variable (h : Party n K p f r)

include h

theorem Party.following {u : Nat}
    (hu : ¬u < (step_down_if_higher r u).current_term) :
    ∃ p', NodeCall n K p p' f r (following r u, []) ∧ p'.term f = u ∧ r.current_term ≤ u := by
  obtain ⟨p₁, hdown⟩ := h.step_down u
  have hcall := hdown.andThen hdown.party.follow
  have hterm : r.current_term ≤ u ∧ (step_down_if_higher r u).current_term = u := by
    unfold step_down_if_higher at hu ⊢
    split
    · next hlt => exact ⟨le_of_lt hlt, rfl⟩
    · next hlt =>
      rw [if_neg hlt] at hu
      omega
  exact ⟨_, hcall, hcall.party.term.symm.trans hterm.2, hterm.1⟩

/-- The part of the log under the snapshot is the leader's. -/
theorem Party.snapshot_isPrefix (hK : K.logs)
    (hl : p.leader (p.term f) ≠ none) : (p.log f).take r.log_base <+: p.llog (p.term f) :=
  (h.inv.settled_llog ((h.inv.committed f).le (h.base_commit hK)) hl).2

variable {epoch leader_commit prev : Nat} {msg : RaftMsg} {es : List RaftEntry}

/-- What `prev_matches` checks is enough for the logs to agree up to there. -/
theorem Party.prev_isPrefix (hK : K.logs) (hl : p.leader (p.term f) ≠ none)
    (hlen : prev ≤ (p.llog (p.term f)).length)
    (hprev : prev_matches r prev (last_term ((p.llog (p.term f)).take prev)) = true) :
    (p.llog (p.term f)).take prev <+: p.log f := by
  simp only [prev_matches, Bool.and_eq_true, Bool.or_eq_true, decide_eq_true_iff] at hprev
  obtain ⟨hle, hcheck⟩ := hprev
  rw [(h.log hK).last_index] at hle
  by_cases hbase : prev < r.log_base
  · refine (prefix_of_prefix_length_le (List.take_prefix _ _) (h.snapshot_isPrefix hK hl) ?_).trans
      (List.take_prefix _ _)
    rw [length_take_of_le hlen, length_take_of_le (h.log hK).base_le]
    omega
  · have hterm := hcheck.resolve_left hbase
    rw [(h.log hK).term_at (Nat.le_of_not_lt hbase) hle] at hterm
    rw [← (h.inv.log_backed f).take_eq (h.inv.llog_backed hl) hle hlen hterm]
    exact take_prefix _ _

/-- The entries of a message are taken over. -/
theorem Party.append_all (hK : K.logs) (hrole : r.role = .RAFT_FOLLOWER)
    (hl : p.leader (p.term f) ≠ none) (prev : Nat) (es : List RaftEntry)
    (hlen : prev + es.length ≤ (p.llog (p.term f)).length)
    (hes : es = ((p.llog (p.term f)).drop prev).take es.length)
    (hprev : (p.llog (p.term f)).take prev <+: p.log f) :
    NodeCall n K p (p.accept f (prev + es.length)) f r (append_all r prev es, []) ∧
      (append_all r prev es).commit_index = r.commit_index ∧
      raft_last_log_index (append_all r prev es) =
        (adopt (p.log f) ((p.llog (p.term f)).take (prev + es.length))).length := by
  have hm := h.accept hl hlen
  obtain ⟨ents, heq, hlog, hfree⟩ := append_all_spec (h.inv.log_backed f) (h.inv.llog_backed hl)
    h.plain (h.log hK) (h.member.trans h.base_member.symm) (h.snapshot_isPrefix hK hl) hprev hlen hes
  rw [heq]
  refine ⟨⟨hm, { h with
    config_free := hfree
    role := ?_
    bare := fun hno => absurd hK hno
    log := ?_
    matched := ?_
    next := ?_
    applied := h.applied_extends hm.ext
    inv := hm.inv
    plain := hm.plain }, by simp, ?_⟩, rfl, hlog.last_index⟩
  · show role_of r.role = upd p.role f .follower f
    rw [upd_self, hrole]
    rfl
  · show K.logs → LogRel _ (upd p.log f _ f)
    rw [upd_self]
    exact fun _ => hlog
  · exact fun _ hlead => absurd (hrole.symm.trans hlead) nofun
  · exact fun _ hlead => absurd (hrole.symm.trans hlead) nofun
  · exact fun hcand => absurd (hrole.symm.trans hcand) nofun

/-- The commit index follows the leader's over entries shared with it. -/
theorem Party.follow_commit (M : List RaftEntry) (covered : Nat)
    (hset : K.commits → Settled (majorities n) p (p.term f) M leader_commit)
    (hM : K.commits → M.take covered <+: p.log f)
    (hcov : K.commits → r.commit_index < leader_commit →
      leader_commit ≤ covered ∨ raft_last_log_index r ≤ covered) :
    ∃ p', NodeCall n K p p' f r (follow_commit r leader_commit, []) := by
  unfold MiniDb.follow_commit
  by_cases hlt : r.commit_index < leader_commit
  · rw [if_pos hlt]
    generalize hk : (if leader_commit < raft_last_log_index r then leader_commit
      else raft_last_log_index r) = k
    have hbound : K.commits → r.commit_index ≤ k ∧ k ≤ leader_commit ∧ k ≤ covered := by
      intro hK
      have hcommit : r.commit_index ≤ raft_last_log_index r := by
        rw [(h.log (K.logs_of_commits hK)).last_index, h.commit hK]
        exact (h.inv.committed f).le_length
      have := hcov hK hlt
      split at hk <;> omega
    refine h.commit_apply r.pending_config_index (fun hK => (hbound hK).1) fun hK => ?_
    exact (hset hK).transfer (hbound hK).2.1
      ((take_prefix_take_left (hbound hK).2.2).trans (hM hK))
  · rw [if_neg hlt]
    exact ⟨p, h.idle⟩

variable {idx prev_term : Nat}

omit h in
/-- The condition on `r` speaks about the state in which the entries are taken over. -/
theorem commit_covered_following {L M : List RaftEntry}
    (hbody : msg.body = .append_entries prev prev_term leader_commit es epoch)
    (hterm : r.current_term ≤ msg.term) (hcov : commit_covered r msg = true)
    (hprev : prev_matches (following r msg.term) prev prev_term = true)
    (hr : LogRel (following r msg.term) L) (hL : Backed p L) (hM : Backed p M) (hplain : Plain p)
    (hmask : r.member_mask = r.base_member_mask) (hsnap : L.take r.log_base <+: M)
    (hpre : M.take prev <+: L) (hlen : prev + es.length ≤ M.length)
    (hes : es = (M.drop prev).take es.length) :
    r.commit_index < leader_commit →
      leader_commit ≤ prev + es.length ∨
        (adopt L (M.take (prev + es.length))).length ≤ prev + es.length := by
  intro hlt
  obtain ⟨hbase, hents, hmark, -⟩ := following_frame r msg.term
  have hr' : LogRel r L := hr.congr hbase.symm hents.symm hmark.symm
  obtain ⟨ents, heq, hlog, -⟩ := append_all_spec hL hM hplain hr' hmask hsnap hpre hlen hes
  have hprev' : prev_matches r prev prev_term = true := by
    have heqlog : (following r msg.term).log = r.log := by rw [Raft.log, hents, hmark, Raft.log]
    unfold prev_matches raft_last_log_index term_at at hprev ⊢
    rwa [hbase, heqlog] at hprev
  rw [commit_covered, hbody] at hcov
  have := of_decide_eq_true hcov hterm hprev' hlt
  rwa [heq, hlog.last_index] at this

/-- A follower takes over entries and then the commit index. -/
theorem Party.take_entries (hrole : r.role = .RAFT_FOLLOWER)
    (hfree : ∀ e ∈ es, e.is_config = false) (hlogs : K.logs → p.leader (p.term f) ≠ none ∧
      prev + es.length ≤ (p.llog (p.term f)).length ∧
      es = ((p.llog (p.term f)).drop prev).take es.length ∧
      (p.llog (p.term f)).take prev <+: p.log f)
    (hset : K.commits → Settled (majorities n) p (p.term f) (p.llog (p.term f)) leader_commit)
    (hcov : K.commits → r.commit_index < leader_commit → leader_commit ≤ prev + es.length ∨
      (adopt (p.log f) ((p.llog (p.term f)).take (prev + es.length))).length ≤ prev + es.length) :
    ∃ p', NodeCall n K p p' f r
        (MiniDb.follow_commit (MiniDb.append_all r prev es) leader_commit, []) ∧
      (K.logs → prev + es.length ≤ p'.ack (p.term f) f) := by
  by_cases hK : K.logs
  · obtain ⟨hl, hlen, hes, hpre⟩ := hlogs hK
    obtain ⟨happ, hcommit, hlast⟩ := h.append_all hK hrole hl prev es hlen hes hpre
    obtain ⟨p', hfollow⟩ := happ.party.follow_commit (p.llog (p.term f)) (prev + es.length)
      (fun hc => settled_llog_extends h.inv happ.moves.ext hl (hset hc)) (fun _ => by
        show _ <+: upd p.log f _ f
        rw [upd_self]
        exact prefix_adopt _ _) (by
        rw [hcommit, hlast]
        exact hcov)
    refine ⟨p', happ.andThen hfollow, fun _ => le_trans ?_ (hfollow.moves.ext.ack _ _)⟩
    show _ ≤ upd2 p.ack (p.term f) f _ (p.term f) f
    rw [upd2_apply, if_pos ⟨rfl, rfl⟩]
    exact Nat.le_max_right _ _
  · have hno : ¬K.commits := fun hc => hK (K.logs_of_commits hc)
    obtain ⟨ents, heq, -, hents⟩ :=
      append_all_plain (h.member.trans h.base_member.symm) h.config_free hfree prev
    have happ : NodeCall n K p p f r (MiniDb.append_all r prev es, []) :=
      heq ▸ h.unlogged hK hents rfl
    obtain ⟨p', hfollow⟩ := happ.party.follow_commit [] 0 (fun hc => absurd hc hno)
      (fun hc => absurd hc hno) (fun hc => absurd hc hno)
    exact ⟨p', happ.andThen hfollow, fun hl => absurd hl hK⟩

theorem Party.entries_taken
    (hbody : msg.body = .append_entries prev prev_term leader_commit es epoch)
    (hok : MsgOk n K p msg) (hcov : K.commits → commit_covered r msg = true)
    (hold : ¬msg.term < (step_down_if_higher r msg.term).current_term)
    (hprev : prev_matches (MiniDb.following r msg.term) prev prev_term = true) :
    ∃ p', NodeCall n K p p' f r
      (MiniDb.follow_commit (MiniDb.append_all (MiniDb.following r msg.term) prev es) leader_commit,
        [answer (MiniDb.following r msg.term) msg
          (.append_entries_reply true (prev + es.length) epoch)]) := by
  obtain ⟨p₂, hcall, hT, hterm⟩ := h.following hold
  have hparty := hcall.party
  obtain ⟨-, hmsg⟩ := hok.extends h.inv hcall.moves.ext
  rw [hbody] at hmsg
  obtain ⟨hfree, hlogs, hset⟩ := hmsg
  rw [← hT] at hlogs hset
  have hpre : K.logs → (p₂.llog (p₂.term f)).take prev <+: p₂.log f := fun hK =>
    hparty.prev_isPrefix hK (hlogs hK).1
      (le_trans (Nat.le_add_right _ _) (hlogs hK).2.1) ((hlogs hK).2.2.2 ▸ hprev)
  obtain ⟨p₃, htake, hack⟩ := hparty.take_entries rfl hfree
    (fun hK => ⟨(hlogs hK).1, (hlogs hK).2.1, (hlogs hK).2.2.1, hpre hK⟩) hset (by
      intro hc
      have hK := K.logs_of_commits hc
      obtain ⟨hl, hlen, hes, -⟩ := hlogs hK
      rw [(following_frame r msg.term).2.2.2]
      exact commit_covered_following hbody hterm (hcov hc) hprev (hparty.log hK)
        (hparty.inv.log_backed f) (hparty.inv.llog_backed hl) hparty.plain
        (h.member.trans h.base_member.symm)
        (by rw [← (following_frame r msg.term).1]; exact hparty.snapshot_isPrefix hK hl)
        (hpre hK) hlen hes)
  refine ⟨p₃, (hcall.andThen htake).send ⟨hparty.id_lt, fun hK _ => ?_⟩⟩
  show prev + es.length ≤ p₃.ack (MiniDb.following r msg.term).current_term
    (MiniDb.following r msg.term).id
  rw [hparty.term, hparty.id]
  exact hack hK

/-! ### Acknowledgements -/

theorem Party.note_match (hl : r.role = .RAFT_LEADER) (peer m : Nat)
    (hack : K.logs → m ≤ p.ack (p.term f) peer) :
    NodeCall n K p p f r (note_match r peer m, []) := by
  have hllog := (h.leads hl).2
  unfold MiniDb.note_match
  dsimp only
  generalize hk : (if r.match_index peer < m then m else r.match_index peer) = k
  refine ⟨h.stay, { h with
    log := h.keep_log rfl rfl rfl
    matched := ?_
    next := ?_ }, by simp, KeepsBallot.refl r⟩
  · intro hK _ j hj
    show update r.match_index peer k j ≤ _
    by_cases hjp : j = peer
    · have := h.matched hK hl j hj
      have := hack hK
      rw [hjp] at *
      rw [update_self]
      split at hk <;> omega
    · rw [update_of_ne hjp]
      exact h.matched hK hl j hj
  · intro hK _ j hj
    show 1 ≤ update r.next_index peer (k + 1) j ∧
      update r.next_index peer (k + 1) j ≤ _
    by_cases hjp : j = peer
    · have hmatch := h.matched hK hl j hj
      have := hack hK
      have hlen := h.inv.ack_le (p.term f) peer
      rw [hllog] at hlen
      rw [hjp] at hmatch ⊢
      rw [update_self]
      split at hk <;> omega
    · rw [update_of_ne hjp]
      exact h.next hK hl j hj

theorem Party.note_read_ack (peer epoch : Nat) :
    NodeCall n K p p f r (note_read_ack r peer epoch, []) := by
  have hparty : ∀ b c m, Party n K p f { r with
      read_barrier_index := b, read_confirmed_index := c, read_ack_mask := m } :=
    fun b c m => { h with log := h.keep_log rfl rfl rfl }
  unfold MiniDb.note_read_ack
  split
  · dsimp only
    split
    · exact ⟨h.stay, hparty none _ _, by simp, KeepsBallot.refl r⟩
    · exact ⟨h.stay, hparty _ _ _, by simp, KeepsBallot.refl r⟩
  · exact h.idle

/-- The next attempt starts one entry earlier. -/
theorem Party.backed (hl : r.role = .RAFT_LEADER) {peer : Nat}
    (hnext : 1 < r.next_index peer) : NodeCall n K p p f r
      ({ r with next_index := update r.next_index peer (r.next_index peer - 1) }, []) := by
  refine ⟨h.stay, { h with
    log := h.keep_log rfl rfl rfl
    next := ?_ }, by simp, KeepsBallot.refl r⟩
  intro hK _ j hj
  have hj' := h.next hK hl j hj
  show 1 ≤ update r.next_index peer (r.next_index peer - 1) j ∧
    update r.next_index peer (r.next_index peer - 1) j ≤ _
  by_cases hjs : j = peer
  · rw [hjs] at hj' ⊢
    rw [update_self]
    omega
  · rw [update_of_ne hjs]
    exact hj'

/-- An acknowledgement may move the commit index. -/
theorem Party.acked (hl : r.role = .RAFT_LEADER)
    (hterm : msg.term = r.current_term) {m : Nat} (hack : K.logs → m ≤ p.ack msg.term msg.sender) :
    ∃ p', NodeCall n K p p' f r
      (MiniDb.leader_advance_commit (MiniDb.note_match r msg.sender m), []) := by
  rw [hterm, h.term] at hack
  have hnote := h.note_match hl msg.sender m hack
  obtain ⟨p₂, hadv, -⟩ := hnote.party.leader_advance_commit hl
  exact ⟨p₂, hnote.andThen hadv⟩

/-! ### Snapshots -/

theorem Party.raft_snapshot {index : Nat} {sm_state : Int} {r' : Raft}
    (hidx : K.compacts index) (hsnap : raft_snapshot r index sm_state = some r') :
    NodeCall n K p p f r (r', []) := by
  unfold MiniDb.raft_snapshot at hsnap
  obtain ⟨hnot, hr'⟩ := Option.ite_none_left_eq_some.mp hsnap
  cases hr'
  push Not at hnot
  obtain ⟨hbase, hcommit, hlast⟩ := hnot
  refine ⟨h.stay, { h with
    base_member := ?_
    config_free := fun e he => h.config_free e (mem_of_mem_drop he)
    log := ?_
    base := fun _ => hidx
    base_commit := fun hK => ?_ }, by simp, KeepsBallot.refl r⟩
  · show fold_config r.base_member_mask _ = _
    rw [fold_config_plain fun e he => h.config_free e (mem_of_mem_take he)]
    exact h.base_member
  · intro hK
    rw [(h.log hK).last_index] at hlast
    refine ⟨hlast, ?_, (h.log hK).term_at (le_of_lt hbase) hlast⟩
    show r.entries.drop (index - r.log_base) = (p.log f).drop index
    rw [(h.log hK).entries, drop_drop]
    congr 1
    omega
  · show index ≤ p.commit f
    rcases K.whole hK with hc | hzero
    · exact h.commit hc ▸ hcommit
    · have := hzero index hidx
      omega

/-- A snapshot replaces a log that has nothing behind it: the node holds the
    leader's log up to the snapshot, and all of it is committed. -/
theorem Party.install (hc : K.commits) (hrole : r.role = .RAFT_FOLLOWER)
    (hl : p.leader (p.term f) ≠ none) (value : Int) (hidx : K.compacts idx)
    (hset : Settled (majorities n) p (p.term f) (p.llog (p.term f)) idx)
    (hfits : raft_last_log_index r ≤ idx ∨
      term_at r idx ≠ last_term ((p.llog (p.term f)).take idx)) (hcommit : r.commit_index < idx) :
    NodeCall n K p ((p.accept f idx).set_commit f idx) f r
      (install r idx (last_term ((p.llog (p.term f)).take idx)) value (full_mask n), []) := by
  have hK := K.logs_of_commits hc
  have hlen := hset.le_length
  have hm := h.accept hl hlen
  have hlog : (p.accept f idx).log f = (p.llog (p.term f)).take idx := by
    show upd p.log f _ f = _
    rw [upd_self]
    by_cases hpre : (p.llog (p.term f)).take idx <+: p.log f
    · -- then the log ends at the snapshot
      rw [adopt_of_isPrefix hpre]
      have hge := hpre.length_le
      rw [length_take_of_le hlen] at hge
      rcases hfits with hfits | hfits
      · rw [(h.log hK).last_index] at hfits
        exact (hpre.eq_of_length (by rw [length_take_of_le hlen]; omega)).symm
      · refine absurd ?_ hfits
        have hbase := h.commit hc ▸ h.base_commit hK
        rw [(h.log hK).term_at (by omega) hge,
          take_eq_of_isPrefix hpre (by rw [length_take_of_le hlen]), take_take, min_self]
    · exact adopt_of_not_isPrefix hpre
  have hset' : Settled (majorities n) (p.accept f idx) ((p.accept f idx).term f)
      ((p.accept f idx).log f) idx := by
    rw [hlog]
    exact (settled_llog_extends h.inv hm.ext hl hset).transfer le_rfl prefix_rfl
  have hext := (extends_set_commit (s := p.accept f idx) (f := f) (k := idx))
  have hmoves : Moves n f p ((p.accept f idx).set_commit f idx) := by
    refine hm.trans ⟨hm.inv.set_commit hset', hm.plain, hext, fun _ _ => rfl, fun _ _ => rfl,
      fun _ _ => rfl, fun g hg => ?_, fun _ _ _ => rfl⟩
    simp [Proto.set_commit, upd_apply, hg]
  refine ⟨hmoves, { h with
    member := rfl
    base_member := rfl
    config_free := fun _ he => absurd he not_mem_nil
    role := ?_
    bare := fun hno => absurd hK hno
    log := ?_
    base := fun _ => hidx
    base_commit := ?_
    commit := ?_
    last_applied := fun _ => rfl
    matched := ?_
    next := ?_
    applied := ?_
    inv := hmoves.inv
    plain := hmoves.plain }, by simp, ?_⟩
  · show role_of r.role = upd p.role f .follower f
    rw [upd_self, hrole]
    rfl
  · show K.logs → LogRel _ ((p.accept f idx).log f)
    rw [hlog]
    refine fun _ => ⟨?_, ?_, ?_⟩
    · show idx ≤ _
      rw [length_take_of_le hlen]
    · show [] = List.drop idx _
      rw [drop_take, Nat.sub_self, take_zero]
    · show last_term _ = last_term (List.take idx _)
      rw [take_take, min_self]
  · show K.logs → idx ≤ upd p.commit f idx f
    rw [upd_self]
    exact fun _ => le_rfl
  · exact fun _ hlead => absurd (hrole.symm.trans hlead) (by simp)
  · exact fun _ hlead => absurd (hrole.symm.trans hlead) (by simp)
  · show K.commits → idx = upd p.commit f idx f
    rw [upd_self]
    exact fun _ => rfl
  · intro _ i command ha
    rcases mem_append.mp ha with ha | ha
    · exact h.applied_extends hmoves.ext hc ha
    · simp at ha
  · exact fun hcand => absurd (hrole.symm.trans hcand) (by simp)

theorem Party.snapshot_taken {term mask : Nat} {value : Int}
    (hbody : msg.body = .install_snapshot idx term value mask) (hok : MsgOk n K p msg)
    (hfits : K.commits → snapshot_fits r msg = true)
    (hold : ¬msg.term < (step_down_if_higher r msg.term).current_term) :
    ∃ p', NodeCall n K p p' f r
      (if idx ≤ (MiniDb.following r msg.term).commit_index then MiniDb.following r msg.term
        else MiniDb.install (MiniDb.following r msg.term) idx term value mask,
        [answer (MiniDb.following r msg.term) msg (.install_snapshot_reply idx)]) := by
  obtain ⟨p₂, hcall, hT, hterm⟩ := h.following hold
  have hparty := hcall.party
  obtain ⟨hbase, hents, hmark, hcommit⟩ := following_frame r msg.term
  obtain ⟨-, hmsg⟩ := hok.extends h.inv hcall.moves.ext
  rw [hbody] at hmsg
  obtain ⟨hmask, hlogs⟩ := hmsg
  by_cases hK : K.logs
  swap
  · -- the log is not followed, and the members stay
    have hreply : MsgOk n K p₂ (answer (MiniDb.following r msg.term) msg (.install_snapshot_reply idx)) :=
      ⟨hparty.id_lt, fun hl => absurd hl hK⟩
    split
    · exact ⟨p₂, hcall.send hreply⟩
    · have hinst : NodeCall n K p₂ p₂ f (MiniDb.following r msg.term)
          (MiniDb.install (MiniDb.following r msg.term) idx term value mask, []) :=
        hparty.unlogged hK nofun (by
          have hmem : (MiniDb.following r msg.term).member_mask = mask := hmask ▸ hparty.member
          have hbmem : (MiniDb.following r msg.term).base_member_mask = mask :=
            hmask ▸ hparty.base_member
          rw [hmem, hbmem]
          rfl)
      exact ⟨p₂, (hcall.andThen hinst).send hreply⟩
  obtain ⟨hl, hbase_ok, hlit, hset⟩ := hlogs hK
  rw [← hT] at hl hlit hset
  -- in both cases the node acknowledges the leader's log up to the snapshot
  have hreply : ∀ p₃, Extends (p₂.accept f idx) p₃ →
      MsgOk n K p₃ (answer (MiniDb.following r msg.term) msg (.install_snapshot_reply idx)) := by
    intro p₃ hext
    refine ⟨hparty.id_lt, fun _ => ?_⟩
    show idx ≤ p₃.ack (MiniDb.following r msg.term).current_term (MiniDb.following r msg.term).id
    rw [hparty.term, hparty.id]
    refine le_trans ?_ (hext.ack _ _)
    show _ ≤ upd2 p₂.ack (p₂.term f) f _ (p₂.term f) f
    rw [upd2_apply, if_pos ⟨rfl, rfl⟩]
    exact Nat.le_max_right _ _
  by_cases hhave : idx ≤ (MiniDb.following r msg.term).commit_index
  · rw [if_pos hhave]
    obtain ⟨hclen, hcpre⟩ := hparty.inv.settled_llog (hparty.inv.committed f) hl
    have hpre : (p₂.llog (p₂.term f)).take idx <+: p₂.log f := by
      rcases K.whole hK with hc | hzero
      swap
      · rw [hzero idx hbase_ok]
        exact nil_prefix
      rw [← hparty.commit hc] at hclen hcpre
      refine (prefix_of_prefix_length_le (List.take_prefix _ _) hcpre ?_).trans
        (List.take_prefix _ _)
      rw [length_take_of_le hset.le_length, length_take_of_le hclen]
      exact hhave
    obtain ⟨hacc, -, -⟩ := hparty.append_all hK rfl hl idx [] hset.le_length rfl hpre
    exact ⟨_, (hcall.andThen hacc).send (hreply _ (Extends.refl _))⟩
  · rw [if_neg hhave]
    have hc : K.commits := (K.whole hK).resolve_right fun hzero =>
      hhave (hzero idx hbase_ok ▸ Nat.zero_le _)
    have hfits' : raft_last_log_index (MiniDb.following r msg.term) ≤ idx ∨
        term_at (MiniDb.following r msg.term) idx ≠ last_term ((p₂.llog (p₂.term f)).take idx) := by
      have heqlog : (MiniDb.following r msg.term).log = r.log := by
        rw [Raft.log, hents, hmark, Raft.log]
      rw [snapshot_fits, hbody] at hfits
      have := of_decide_eq_true (hfits hc) hterm (by omega)
      unfold raft_last_log_index term_at at this ⊢
      rwa [hbase, heqlog, ← hlit]
    have hinst := hparty.install hc rfl hl value hbase_ok hset hfits' (Nat.lt_of_not_le hhave)
    rw [← hlit, ← hmask] at hinst
    exact ⟨_, (hcall.andThen hinst).send (hreply _ extends_set_commit)⟩

end Handlers

end MiniDb
