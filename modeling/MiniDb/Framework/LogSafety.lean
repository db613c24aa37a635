import MiniDb.Framework.ReplicatedLog

/-! # Safety of a replicated log

  The invariant of `Proto.Step` and what follows from it.  The heart is the
  pair `holds` / `voted_with`: what a node has acknowledged to the leader of
  term `t` is still in its log (or was, when it voted), provided the leaders
  elected in between had it too.  Leader completeness is then an induction on
  the later term, and discharges the proviso. -/

namespace Framework

open List Option

variable {ι E : Type*} {α β : Type*} (g : α → β)

theorem upd_apply [DecidableEq α] (a : α) (b : β) (x : α) :
    upd g a b x = if x = a then b else g x := rfl

theorem upd2_apply {α β γ : Type*} [DecidableEq α] [DecidableEq β] (g : α → β → γ) (a : α) (b : β)
    (c : γ) (x : α) (y : β) :
    upd2 g a b c x y = if x = a ∧ y = b then c else g x y := rfl

theorem upd2_eq_some {α β γ : Type*} [DecidableEq α] [DecidableEq β] {g : α → β → Option γ} {a x : α}
    {b y : β} {c d : γ} (h : upd2 g a b (some c) x y = some d) :
    g x y = some d ∨ (x = a ∧ y = b ∧ d = c) := by
  rw [upd2_apply] at h
  split at h
  · next heq => exact .inr ⟨heq.1, heq.2, (Option.some.inj h).symm⟩
  · exact .inl h

@[simp] theorem upd_self [DecidableEq α] (a : α) (b : β) :
    upd g a b a = b := by
  simp [upd_apply]

/-! ### What history keeps -/

/-- Facts about `s` that still hold in `s'`: history only grows. -/
structure Extends (s s' : Proto ι E) : Prop where
  term : ∀ f, s.term f ≤ s'.term f
  cand : ∀ {u c C}, s.cand u c = some C → s'.cand u c = some C
  vote : ∀ {u f v}, s.vote u f = some v → s'.vote u f = some v
  leader : ∀ {u c}, s.leader u = some c → s'.leader u = some c
  elog : ∀ {u}, s.leader u ≠ none → s'.elog u = s.elog u
  llog : ∀ {u}, s.leader u ≠ none → s.llog u <+: s'.llog u
  ack : ∀ u f, s.ack u f ≤ s'.ack u f

theorem Extends.refl (s : Proto ι E) : Extends s s :=
  ⟨fun _ => le_rfl, id, id, id, fun _ => rfl, fun _ => prefix_rfl,
    fun _ _ => le_rfl⟩

variable {s' : Proto ι E} {s : Proto ι E}

theorem Extends.elected (h : Extends s s') {u : Nat} (hu : s.leader u ≠ none) :
    s'.leader u ≠ none := by
  obtain ⟨c, hc⟩ := ne_none_iff_exists'.mp hu
  rw [h.leader hc]
  simp

theorem Extends.trans {s s'' : Proto ι E} (h : Extends s s') (h' : Extends s' s'') :
    Extends s s'' where
  term := fun f => le_trans (h.term f) (h'.term f)
  cand := fun hc => h'.cand (h.cand hc)
  vote := fun hv => h'.vote (h.vote hv)
  leader := fun hl => h'.leader (h.leader hl)
  elog := fun hu => (h'.elog (h.elected hu)).trans (h.elog hu)
  llog := fun hu => (h.llog hu).trans (h'.llog (h.elected hu))
  ack := fun u f => le_trans (h.ack u f) (h'.ack u f)

/-- A prefix up to a length both lists have is the same in both. -/
theorem take_eq_of_isPrefix {L M : List E} (h : L <+: M) {n : Nat} (hn : n ≤ L.length) :
    M.take n = L.take n := by
  obtain ⟨K, rfl⟩ := h
  exact take_append_of_le_length hn

variable [Termed E]

/-- Every entry of `L` was created by the leader of its term, on top of the
    entries that come before it in `L`. -/
def Backed (s : Proto ι E) (L : List E) : Prop :=
  ∀ i e, L[i]? = some e → s.leader (Termed.term e) ≠ none ∧
    (s.elog (Termed.term e)).length ≤ i ∧ L.take (i + 1) <+: s.llog (Termed.term e)

theorem Backed.extends {L : List E} (h : Backed s L) (hext : Extends s s') :
    Backed s' L := by
  intro i e he
  obtain ⟨hl, hlen, hpre⟩ := h i e he
  exact ⟨hext.elected hl, by rw [hext.elog hl]; exact hlen, hpre.trans (hext.llog hl)⟩

theorem Backed.of_isPrefix {L K : List E} (h : Backed s L) (hK : K <+: L) :
    Backed s K := by
  intro i e he
  obtain ⟨M, rfl⟩ := hK
  have hi : i < K.length := (List.getElem?_eq_some_iff.mp he).1
  obtain ⟨hl, hlen, hpre⟩ := h i e (by rw [List.getElem?_append_left hi]; exact he)
  rw [take_append_of_le_length hi] at hpre
  exact ⟨hl, hlen, hpre⟩

theorem Chosen.extends {Q : QuorumSystem ι} {t n : Nat} (h : Chosen Q s t n)
    (hext : Extends s s') (hl : s.leader t ≠ none) : Chosen Q s' t n := by
  obtain ⟨e, he, hterm⟩ := h.own
  obtain ⟨S, hS, hack⟩ := h.quorum
  obtain ⟨M, hM⟩ := hext.llog hl
  have hlt : n - 1 < (s.llog t).length := (List.getElem?_eq_some_iff.mp he).1
  refine ⟨⟨e, ?_, hterm⟩, h.pos, S, hS, fun f hf => le_trans (hack f hf) (hext.ack t f)⟩
  rw [← hM, List.getElem?_append_left hlt]
  exact he

/-! ### The invariant -/

structure Inv (Q : QuorumSystem ι) (s : Proto ι E) : Prop where
  vote_le : ∀ {u f v}, s.vote u f = some v → u ≤ s.term f
  vote_cand : ∀ {u f v}, s.vote u f = some v →
    ∃ C, s.cand u v.candidate = some C ∧ UpToDate C v.log
  vote_backed : ∀ {u f v}, s.vote u f = some v → Backed s v.log
  vote_early : ∀ {u f v}, s.vote u f = some v → s.leader u = none → v.early
  cand_le : ∀ {u c C}, s.cand u c = some C → u ≤ s.term c
  cand_lt : ∀ {u c C}, s.cand u c = some C → ∀ e ∈ C, Termed.term e < u
  cand_backed : ∀ {u c C}, s.cand u c = some C → Backed s C
  leader_cand : ∀ {u c}, s.leader u = some c → s.cand u c = some (s.elog u)
  leader_votes : ∀ {u c}, s.leader u = some c → ∃ S, Q.is_quorum S ∧
    ∀ f ∈ S, ∃ v, s.vote u f = some v ∧ v.candidate = c ∧ v.early
  elog_llog : ∀ {u}, s.leader u ≠ none → s.elog u <+: s.llog u
  llog_own : ∀ {u}, s.leader u ≠ none → ∀ i e, (s.llog u)[i]? = some e →
    (s.elog u).length ≤ i → Termed.term e = u
  llog_backed : ∀ {u}, s.leader u ≠ none → Backed s (s.llog u)
  /-- Terms without a leader have no log and no acknowledgements. -/
  vacant : ∀ {u}, s.leader u = none → s.llog u = [] ∧ ∀ f, s.ack u f = 0
  role_cand : ∀ {c}, s.role c = .candidate →
    s.cand (s.term c) c = some (s.log c) ∧ s.leader (s.term c) ≠ some c
  role_lead : ∀ {c}, s.role c = .leader →
    s.leader (s.term c) = some c ∧ s.llog (s.term c) = s.log c
  log_backed : ∀ f, Backed s (s.log f)
  log_le : ∀ f, ∀ e ∈ s.log f, Termed.term e ≤ s.term f
  ack_le : ∀ u f, s.ack u f ≤ (s.llog u).length
  ack_term : ∀ {u f}, 0 < s.ack u f → u ≤ s.term f
  /-- What was acknowledged is in the log, if the leaders since then had it. -/
  holds : ∀ {t f n}, n ≤ s.ack t f →
    (∀ u, t < u → u ≤ s.term f → s.leader u ≠ none → (s.llog t).take n <+: s.elog u) →
    (s.llog t).take n <+: s.log f
  voted_with : ∀ {t f n u v}, s.vote u f = some v → v.early → t < u → n ≤ s.ack t f →
    (∀ w, t < w → w < u → s.leader w ≠ none → (s.llog t).take n <+: s.elog w) →
    (s.llog t).take n <+: v.log
  committed : ∀ f, Settled Q s (s.term f) (s.log f) (s.commit f)

theorem inv_init (Q : QuorumSystem ι) : Inv Q (Proto.init : Proto ι E) := by
  constructor <;> simp [Proto.init, Backed, Settled]

section Consequences

variable {Q : QuorumSystem ι} {s : Proto ι E} {t n : Nat}

variable {i k u : Nat} {L : List E} {e : E}

variable (h : Inv Q s) {M : List E} {S : Finset ι} {t n : Nat}

include h

theorem Inv.leader_le {c : ι} (hl : s.leader u = some c) :
    u ≤ s.term c := h.cand_le (h.leader_cand hl)

theorem Inv.elog_lt (hl : s.leader u ≠ none) : ∀ e ∈ s.elog u, Termed.term e < u := by
  obtain ⟨c, hc⟩ := ne_none_iff_exists'.mp hl
  exact h.cand_lt (h.leader_cand hc)

theorem Inv.llog_le (hl : s.leader u ≠ none) : ∀ e ∈ s.llog u, Termed.term e ≤ u := by
  intro e he
  obtain ⟨i, hi⟩ := getElem?_of_mem he
  rcases lt_or_ge i (s.elog u).length with hlt | hge
  · obtain ⟨M, hM⟩ := h.elog_llog hl
    rw [← hM, getElem?_append_left hlt] at hi
    exact le_of_lt (h.elog_lt hl e (mem_of_getElem? hi))
  · exact le_of_eq (h.llog_own hl i e hi hge)

/-- In a backed log terms do not decrease. -/
theorem Inv.term_mono (hL : Backed s L) {j : Nat} {e' : E} (hij : i ≤ j)
    (he : L[i]? = some e) (he' : L[j]? = some e') : Termed.term e ≤ Termed.term e' := by
  obtain ⟨hl, -, hpre⟩ := hL j e' he'
  refine h.llog_le hl e (hpre.subset (mem_of_getElem? (i := i) ?_))
  rw [getElem?_take_of_lt (by omega)]
  exact he

omit h in
theorem last_term_eq (hi : i + 1 = L.length) (he : L[i]? = some e) :
    last_term L = Termed.term e := by
  have : L.getLast? = some e := by
    rw [getLast?_eq_getElem?, ← hi, Nat.add_sub_cancel]
    exact he
  simp [last_term, this]

/-- The last entry of a log with `n` entries is at least as new as its `n`-th. -/
theorem Inv.le_last_term (hL : Backed s L) (he : L[i]? = some e) :
    Termed.term e ≤ last_term L := by
  have hi : i < L.length := (List.getElem?_eq_some_iff.mp he).1
  have hlast : L[L.length - 1]? = some (L.get ⟨L.length - 1, by omega⟩) := by simp
  rw [last_term_eq (by omega) hlast]
  exact h.term_mono hL (by omega) he hlast

/-- Two leaders of one term are the same node. -/
theorem Inv.one_leader {c c' : ι} (hc : s.leader u = some c)
    (hS : Q.is_quorum S) (hvotes : ∀ f ∈ S, ∃ v, s.vote u f = some v ∧ v.candidate = c') :
    c = c' := by
  obtain ⟨S', hS', hv'⟩ := h.leader_votes hc
  obtain ⟨f, hf, hf'⟩ := Q.meet S S' hS hS'
  obtain ⟨v, hv, hvc⟩ := hvotes f hf
  obtain ⟨v', hvf, hvc', -⟩ := hv' f hf'
  cases hv.symm.trans hvf
  exact hvc'.symm.trans hvc

/-- A term whose candidate still stands has no leader, once it has its votes. -/
theorem Inv.vacant_of_votes {c : ι} (hrole : s.role c = .candidate) (hS : Q.is_quorum S)
    (hvotes : ∀ f ∈ S, ∃ v, s.vote (s.term c) f = some v ∧ v.candidate = c) :
    s.leader (s.term c) = none := by
  by_contra hne
  obtain ⟨c', hc'⟩ := ne_none_iff_exists'.mp hne
  rw [h.one_leader hc' hS hvotes] at hc'
  exact (h.role_cand hrole).2 hc'

omit h in
theorem Chosen.elected (hc : Chosen Q s t n) (h : Inv Q s) : s.leader t ≠ none := by
  intro hnone
  obtain ⟨e, he, -⟩ := hc.own
  rw [(h.vacant hnone).1] at he
  simp at he

omit h in
theorem Chosen.le_length (hc : Chosen Q s t n) : n ≤ (s.llog t).length := by
  obtain ⟨e, he, -⟩ := hc.own
  have := (List.getElem?_eq_some_iff.mp he).1
  have := hc.pos
  omega

/-- Leader completeness: what is chosen is in the log of every later leader
    from its election on. -/
theorem Inv.leader_complete (hc : Chosen Q s t n) :
    ∀ u, t < u → s.leader u ≠ none → (s.llog t).take n <+: s.elog u := by
  -- by induction on the later term
  intro u
  induction u using Nat.strong_induction_on with
  | _ u ih =>
  intro htu hl
  obtain ⟨c, hcl⟩ := ne_none_iff_exists'.mp hl
  obtain ⟨S, hS, hvotes⟩ := h.leader_votes hcl
  obtain ⟨S', hS', hacks⟩ := hc.quorum
  -- a voter that had acknowledged the chosen entries
  obtain ⟨f, hf, hf'⟩ := Q.meet S S' hS hS'
  obtain ⟨v, hv, hvc, hearly⟩ := hvotes f hf
  have hvlog : (s.llog t).take n <+: v.log :=
    h.voted_with hv hearly htu (hacks f hf') fun w htw hwu hlw => ih w hwu htw hlw
  obtain ⟨C, hcand, hup⟩ := h.vote_cand hv
  rw [hvc, h.leader_cand hcl] at hcand
  cases hcand
  obtain ⟨e, he, hte⟩ := hc.own
  have hpos := hc.pos
  have hlen := hc.le_length
  have hvlen : n ≤ v.log.length := by
    have := hvlog.length_le
    rwa [length_take_of_le hlen] at this
  have hve : v.log[n - 1]? = some e := by
    obtain ⟨M, hM⟩ := hvlog
    rw [← hM, getElem?_append_left (by rw [length_take_of_le hlen]; omega),
      getElem?_take_of_lt (by omega)]
    exact he
  have hvt : t ≤ last_term v.log := hte ▸ h.le_last_term (h.vote_backed hv) hve
  -- the log the leader was elected with is not empty
  have hne : 0 < (s.elog u).length := by
    rcases hup with hlt | ⟨-, hle⟩
    · by_contra hzero
      have : s.elog u = [] := length_eq_zero_iff.mp (by omega)
      rw [this] at hlt
      simp [last_term] at hlt
    · omega
  obtain ⟨i, hi⟩ : ∃ i, i + 1 = (s.elog u).length := ⟨(s.elog u).length - 1, by omega⟩
  obtain ⟨e', he'⟩ : ∃ e', (s.elog u)[i]? = some e' :=
    ⟨(s.elog u).get ⟨i, by omega⟩, by simp⟩
  obtain ⟨hl', hlen', hpre⟩ := h.cand_backed (h.leader_cand hcl) i e' he'
  rw [hi, take_length] at hpre
  have hlast := last_term_eq hi he'
  by_cases hlt : t < Termed.term e'
  · -- its last entry comes from a leader in between, which had the chosen entries
    have hwu : Termed.term e' < u := h.elog_lt hl e' (mem_of_getElem? he')
    have hmid := ih (Termed.term e') hwu hlt hl'
    refine prefix_of_prefix_length_le (hmid.trans (h.elog_llog hl')) hpre ?_
    have := hmid.length_le
    omega
  · -- its last entry comes from the choosing leader itself
    have hteq : Termed.term e' = t := by
      rcases hup with hup | ⟨hup, -⟩ <;> omega
    have hle : v.log.length ≤ (s.elog u).length := by
      rcases hup with hup | ⟨-, hup⟩
      · omega
      · exact hup
    rw [hteq] at hpre
    refine prefix_of_prefix_length_le (List.take_prefix n _) hpre ?_
    rw [length_take_of_le hlen]
    omega

/-- The same for the log the leader has now, also in the term of the choice. -/
theorem Inv.chosen_llog (hc : Chosen Q s t n) (htu : t ≤ u)
    (hl : s.leader u ≠ none) : (s.llog t).take n <+: s.llog u := by
  rcases Nat.lt_or_eq_of_le htu with hlt | rfl
  · exact (h.leader_complete hc u hlt hl).trans (h.elog_llog hl)
  · exact take_prefix n _

/-- Two chosen prefixes agree where both are. -/
theorem Inv.chosen_agree {t t' n n' : Nat} (hc : Chosen Q s t n)
    (hc' : Chosen Q s t' n') (hi : i < n) (hi' : i < n') : (s.llog t)[i]? = (s.llog t')[i]? := by
  have aux : ∀ {t t' n : Nat}, Chosen Q s t n → t ≤ t' → s.leader t' ≠ none → i < n →
      (s.llog t)[i]? = (s.llog t')[i]? := by
    intro t t' n hc htt hl hi
    obtain ⟨M, hM⟩ := h.chosen_llog hc htt hl
    have hlen := hc.le_length
    rw [← hM, getElem?_append_left (by rw [length_take_of_le hlen]; exact hi),
      getElem?_take_of_lt hi]
  rcases Nat.le_total t t' with htt | htt
  · exact aux hc htt (hc'.elected h) hi
  · exact (aux hc' htt (hc.elected h) hi').symm

omit h in
/-- What is settled is in every log that has the prefixes chosen so far. -/
theorem Settled.isPrefix (hset : Settled Q s u L k)
    (hM : ∀ t n, Chosen Q s t n → t ≤ u → (s.llog t).take n <+: M) :
    k ≤ L.length ∧ L.take k <+: M := by
  rcases hset with rfl | ⟨t, n, hc, htu, hkn, hpre⟩
  · simp
  · have hlen : k ≤ (s.llog t).length := le_trans hkn hc.le_length
    have hkL : k ≤ L.length := by
      have := hpre.length_le
      rwa [length_take_of_le hlen] at this
    refine ⟨hkL, ?_⟩
    have heq : L.take k = (s.llog t).take k := by
      rw [take_eq_of_isPrefix hpre (by rw [length_take_of_le hlen]), take_take, min_self]
    rw [heq]
    exact (take_prefix_take_left hkn).trans (hM t n hc htu)

/-- What is settled in a node's log is in the log of the leader of a later term. -/
theorem Inv.settled_llog (hset : Settled Q s u L k) (hl : s.leader u ≠ none) :
    k ≤ L.length ∧ L.take k <+: s.llog u :=
  hset.isPrefix fun _ _ hc htu => h.chosen_llog hc htu hl

/-- A later leader was elected with everything settled before its term. -/
theorem Inv.settled_elog {v : Nat} (hset : Settled Q s u L k) (huv : u < v)
    (hl : s.leader v ≠ none) : k ≤ L.length ∧ L.take k <+: s.elog v :=
  hset.isPrefix fun _ _ hc htu => h.leader_complete hc v (lt_of_le_of_lt htu huv) hl

/-! ### Log matching -/

omit h

omit [Termed E] in
theorem getElem?_of_take_isPrefix (h : M.take k <+: L) (hi : i < k) (hk : k ≤ M.length)
    : L[i]? = M[i]? := by
  obtain ⟨K, rfl⟩ := h
  rw [getElem?_append_left (by rw [length_take_of_le hk]; exact hi),
    getElem?_take_of_lt hi]

theorem last_term_take (h : L[i]? = some e) : last_term (L.take (i + 1)) = Termed.term e := by
  have hi : i < L.length := (List.getElem?_eq_some_iff.mp h).1
  refine last_term_eq (by rw [length_take_of_le hi]) ?_
  rw [List.getElem?_take_of_lt (Nat.lt_succ_self i)]
  exact h

/-- Logs whose entries at one index have the same term agree up to there. -/
theorem Backed.take_eq (hL : Backed s L) (hM : Backed s M) (hi : i ≤ L.length)
    (hi' : i ≤ M.length) (hterm : last_term (L.take i) = last_term (M.take i)) :
    L.take i = M.take i := by
  cases i with
  | zero => simp
  | succ i =>
    have he : L[i]? = some (L.get ⟨i, hi⟩) := by simp
    have he' : M[i]? = some (M.get ⟨i, hi'⟩) := by simp
    rw [last_term_take he, last_term_take he'] at hterm
    -- both are prefixes of the log of the leader of that term
    obtain ⟨-, -, hpre⟩ := hL i _ he
    obtain ⟨-, -, hpre'⟩ := hM i _ he'
    rw [← hterm] at hpre'
    refine (prefix_of_prefix_length_le hpre hpre' ?_).eq_of_length ?_ <;>
      simp [length_take_of_le hi, length_take_of_le hi']

/-! ### Settled prefixes and decided entries -/

theorem Settled.le_length (h : Settled Q s u L k) : k ≤ L.length := by
  rcases h with rfl | ⟨t, n, hc, -, hkn, hpre⟩
  · exact Nat.zero_le _
  · have := hpre.length_le
    rwa [length_take_of_le (le_trans hkn hc.le_length)] at this

/-- A log that shares a settled prefix has it settled as well. -/
theorem Settled.transfer {k' : Nat} (h : Settled Q s u M k) (hk : k' ≤ k)
    (hL : M.take k' <+: L) : Settled Q s u L k' := by
  rcases h with rfl | ⟨t, n, hc, htu, hkn, hpre⟩
  · exact .inl (Nat.le_zero.mp hk)
  · refine .inr ⟨t, n, hc, htu, le_trans hk hkn, ?_⟩
    have hlen : k ≤ (s.llog t).length := le_trans hkn hc.le_length
    have heq : M.take k' = (s.llog t).take k' := by
      rw [take_eq_of_isPrefix hpre (by rw [length_take_of_le hlen]; exact hk), take_take,
        Nat.min_eq_left hk]
    rw [← heq]
    exact hL

/-- Entry `e` is chosen for position `i`. -/
def Decided (Q : QuorumSystem ι) (s : Proto ι E) (i : Nat) (e : E) : Prop :=
  ∃ t n, Chosen Q s t n ∧ i < n ∧ (s.llog t)[i]? = some e

theorem Decided.unique (h : Inv Q s) {e' : E} (hd : Decided Q s i e) (hd' : Decided Q s i e') :
    e = e' := by
  obtain ⟨t, n, hc, hi, he⟩ := hd
  obtain ⟨t', n', hc', hi', he'⟩ := hd'
  rw [h.chosen_agree hc hc' hi hi', he'] at he
  exact (some.inj he).symm

theorem Decided.extends {s' : Proto ι E} (h : Inv Q s) (hd : Decided Q s i e) (hext : Extends s s')
    : Decided Q s' i e := by
  obtain ⟨t, n, hc, hi, he⟩ := hd
  have hl := hc.elected h
  refine ⟨t, n, hc.extends hext hl, hi, ?_⟩
  obtain ⟨M, hM⟩ := hext.llog hl
  rw [← hM, List.getElem?_append_left (List.getElem?_eq_some_iff.mp he).1]
  exact he

/-- The entries of a settled prefix are decided. -/
theorem Settled.decided (h : Settled Q s u L k) (hi : i < k) (he : L[i]? = some e) :
    Decided Q s i e := by
  rcases h with rfl | ⟨t, n, hc, -, hkn, hpre⟩
  · omega
  · refine ⟨t, n, hc, lt_of_lt_of_le hi hkn, ?_⟩
    rw [← getElem?_of_take_isPrefix hpre hi (le_trans hkn hc.le_length)]
    exact he

end Consequences

end Framework
