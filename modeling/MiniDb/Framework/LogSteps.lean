import MiniDb.Framework.LogSafety

/-! # Every step of the replicated log keeps its invariant

  One lemma per step, after the lemma that says which history the step keeps. -/

namespace Framework

open List Option

variable {ι E : Type*} [Termed E] {Q : QuorumSystem ι} {s : Proto ι E}

variable {k u : Nat} {c f : ι}

variable (h : Inv Q s) {u' : Nat} {s' : Proto ι E} {L : List E}

include h

/-- What is settled stays settled, in the same log or a longer one. -/
theorem Settled.extends {L L' : List E} (hset : Settled Q s u L k)
    (hext : Extends s s') (hu : u ≤ u')
    (hL : ∀ t n, Chosen Q s t n → t ≤ u → k ≤ n → (s.llog t).take k <+: L →
      (s.llog t).take k <+: L') : Settled Q s' u' L' k := by
  rcases hset with rfl | ⟨t, n, hc, htu, hkn, hpre⟩
  · exact .inl rfl
  · have hl := hc.elected h
    refine .inr ⟨t, n, hc.extends hext hl, le_trans htu hu, hkn, ?_⟩
    have heq := take_eq_of_isPrefix (hext.llog hl) (le_trans hkn hc.le_length)
    rw [heq]
    exact hL t n hc htu hkn hpre

/-- The same log. -/
theorem Settled.extends_same (hset : Settled Q s u L k)
    (hext : Extends s s') (hu : u ≤ u') : Settled Q s' u' L k :=
  hset.extends h hext hu fun _ _ _ _ _ hpre => hpre

variable [DecidableEq ι] {m : Nat}

/-! ### Terms and votes -/

omit h in
omit [Termed E] in
theorem extends_advance (hu : s.term f < u) : Extends s (s.advance f u) where
  term := fun g => by
    simp only [Proto.advance, upd_apply]
    split
    · next heq => exact heq ▸ le_of_lt hu
    · exact le_rfl
  __ := Extends.refl s

theorem Inv.advance (hu : s.term f < u) : Inv Q (s.advance f u) := by
  have hext := extends_advance hu
  refine { h with
    vote_le := fun hv => le_trans (h.vote_le hv) (hext.term _)
    cand_le := fun hc => le_trans (h.cand_le hc) (hext.term _)
    role_cand := ?_
    role_lead := ?_
    log_le := fun g e he => le_trans (h.log_le g e he) (hext.term g)
    ack_term := fun ha => le_trans (h.ack_term ha) (hext.term _)
    holds := fun {t g n} hn hw => h.holds hn fun w htw hwt => hw w htw (le_trans hwt (hext.term g))
    committed := fun g => (h.committed g).extends_same h hext (hext.term g) }
  · intro c hc
    simp only [Proto.advance, upd_apply] at hc ⊢
    split at hc
    · cases hc
    · next hne =>
      rw [if_neg hne]
      exact h.role_cand hc
  · intro c hc
    simp only [Proto.advance, upd_apply] at hc ⊢
    split at hc
    · cases hc
    · next hne =>
      rw [if_neg hne]
      exact h.role_lead hc

omit h in
omit [Termed E] in
/-- A vote in a slot that was free. -/
theorem vote_upd2 {vote : Nat → ι → Option (Vote ι E)} {v : Vote ι E} (hfree : vote u f = none)
    {f' : ι} {v' : Vote ι E} (h : vote u' f' = some v') :
    upd2 vote u f (some v) u' f' = some v' := by
  rw [upd2_apply, if_neg]
  · exact h
  · rintro ⟨rfl, rfl⟩
    cases hfree.symm.trans h

omit h in
omit [Termed E] in
theorem extends_cast (hfree : s.vote (s.term f) f = none) : Extends s (s.cast f c) where
  vote := vote_upd2 hfree
  __ := Extends.refl s

theorem Inv.cast {C : List E} (hfree : s.vote (s.term f) f = none)
    (hc : s.cand (s.term f) c = some C) (hup : UpToDate C (s.log f)) : Inv Q (s.cast f c) := by
  have hext : Extends s (s.cast f c) := extends_cast hfree
  -- a vote after the step is an old one or the new one
  have hcases {u g v} (hv : (s.cast f c).vote u g = some v) := upd2_eq_some hv
  refine { h with
    vote_le := ?_
    vote_cand := ?_
    vote_backed := ?_
    vote_early := ?_
    leader_votes := ?_
    voted_with := ?_
    committed := fun g => (h.committed g).extends_same h hext le_rfl }
  · intro u g v hv
    rcases hcases hv with hv | ⟨rfl, rfl, -⟩
    · exact h.vote_le hv
    · exact le_rfl
  · intro u g v hv
    rcases hcases hv with hv | ⟨rfl, rfl, rfl⟩
    · exact h.vote_cand hv
    · exact ⟨C, hc, hup⟩
  · intro u g v hv
    rcases hcases hv with hv | ⟨rfl, rfl, rfl⟩
    · exact h.vote_backed hv
    · exact h.log_backed g
  · intro u g v hv hnone
    rcases hcases hv with hv | ⟨rfl, rfl, rfl⟩
    · exact h.vote_early hv hnone
    · exact hnone
  · intro u d hd
    obtain ⟨S, hS, hvotes⟩ := h.leader_votes hd
    refine ⟨S, hS, fun g hg => ?_⟩
    obtain ⟨v, hv, hrest⟩ := hvotes g hg
    exact ⟨v, hext.vote hv, hrest⟩
  · intro t g n u v hv hearly htu hn hw
    rcases hcases hv with hv | ⟨rfl, rfl, rfl⟩
    · exact h.voted_with hv hearly htu hn hw
    · -- the log of the voter, while its term has no leader
      refine h.holds hn fun w htw hwu hl => hw w htw ?_ hl
      rcases Nat.lt_or_eq_of_le hwu with hlt | rfl
      · exact hlt
      · exact absurd hearly hl

theorem extends_stand (c : ι) : Extends s (s.stand c) where
  term := fun g => by
    simp only [Proto.stand, upd_apply]
    split
    · next heq => exact heq ▸ Nat.le_succ _
    · exact le_rfl
  cand := fun {u d C} hd => by
    simp only [Proto.stand, upd2_apply]
    rw [if_neg]
    · exact hd
    · rintro ⟨rfl, rfl⟩
      exact absurd (h.cand_le hd) (by omega)
  vote := fun {u d v} hd => by
    simp only [Proto.stand, upd2_apply]
    rw [if_neg]
    · exact hd
    · rintro ⟨rfl, rfl⟩
      exact absurd (h.vote_le hd) (by omega)
  __ := Extends.refl s

theorem Inv.stand (c : ι) : Inv Q (s.stand c) := by
  have hext := extends_stand h c
  have hself : (s.stand c).term c = s.term c + 1 := upd_self _ _ _
  have hother : ∀ {g}, g ≠ c → (s.stand c).term g = s.term g := fun hne => if_neg hne
  have hvcases {u g v} (hv : (s.stand c).vote u g = some v) := upd2_eq_some hv
  have hccases {u d C} (hd : (s.stand c).cand u d = some C) := upd2_eq_some hd
  have hcand : (s.stand c).cand (s.term c + 1) c = some (s.log c) := if_pos ⟨rfl, rfl⟩
  refine { h with
    vote_le := ?_
    vote_cand := ?_
    vote_backed := ?_
    vote_early := ?_
    cand_le := ?_
    cand_lt := ?_
    cand_backed := ?_
    leader_cand := fun hl => hext.cand (h.leader_cand hl)
    leader_votes := ?_
    role_cand := ?_
    role_lead := ?_
    log_le := fun g e he => le_trans (h.log_le g e he) (hext.term g)
    ack_term := fun ha => le_trans (h.ack_term ha) (hext.term _)
    holds := fun {t g n} hn hw => h.holds hn fun w htw hwt => hw w htw (le_trans hwt (hext.term g))
    voted_with := ?_
    committed := fun g => (h.committed g).extends_same h hext (hext.term g) }
  · intro u g v hv
    rcases hvcases hv with hv | ⟨rfl, rfl, -⟩
    · exact le_trans (h.vote_le hv) (hext.term g)
    · exact le_of_eq hself.symm
  · intro u g v hv
    rcases hvcases hv with hv | ⟨rfl, rfl, rfl⟩
    · obtain ⟨C, hC, hup⟩ := h.vote_cand hv
      exact ⟨C, hext.cand hC, hup⟩
    · exact ⟨s.log g, hcand, UpToDate.refl _⟩
  · intro u g v hv
    rcases hvcases hv with hv | ⟨rfl, rfl, rfl⟩
    · exact h.vote_backed hv
    · exact h.log_backed g
  · intro u g v hv hnone
    rcases hvcases hv with hv | ⟨rfl, rfl, rfl⟩
    · exact h.vote_early hv hnone
    · exact hnone
  · intro u d C hd
    rcases hccases hd with hd | ⟨rfl, rfl, -⟩
    · exact le_trans (h.cand_le hd) (hext.term d)
    · exact le_of_eq hself.symm
  · intro u d C hd e he
    rcases hccases hd with hd | ⟨rfl, rfl, rfl⟩
    · exact h.cand_lt hd e he
    · exact Nat.lt_succ_of_le (h.log_le d e he)
  · intro u d C hd
    rcases hccases hd with hd | ⟨rfl, rfl, rfl⟩
    · exact h.cand_backed hd
    · exact h.log_backed d
  · intro u d hd
    obtain ⟨S, hS, hvotes⟩ := h.leader_votes hd
    refine ⟨S, hS, fun g hg => ?_⟩
    obtain ⟨v, hv, hrest⟩ := hvotes g hg
    exact ⟨v, hext.vote hv, hrest⟩
  · intro d hd
    by_cases hdc : d = c
    · subst hdc
      rw [hself]
      -- nobody can lead a term it has not stood in
      exact ⟨hcand, fun hl => absurd (h.leader_le hl) (by omega)⟩
    · simp only [Proto.stand, upd_apply, if_neg hdc] at hd
      obtain ⟨hcd, hld⟩ := h.role_cand hd
      rw [hother hdc]
      exact ⟨hext.cand hcd, hld⟩
  · intro d hd
    by_cases hdc : d = c
    · subst hdc
      simp [Proto.stand] at hd
    · simp only [Proto.stand, upd_apply, if_neg hdc] at hd
      rw [hother hdc]
      exact h.role_lead hd
  · intro t g n u v hv hearly htu hn hw
    rcases hvcases hv with hv | ⟨rfl, rfl, rfl⟩
    · exact h.voted_with hv hearly htu hn hw
    · exact h.holds hn fun w htw hwu hl => hw w htw (by omega) hl

/-! ### Leaders -/

/-- A node acknowledges in its own term. -/
theorem Inv.ack_term_upd2 {g : ι} (hpos : 0 < upd2 s.ack (s.term f) f m u g) :
    u ≤ s.term g := by
  rw [upd2_apply] at hpos
  split at hpos
  · next heq => exact le_of_eq (heq.1.trans (congrArg s.term heq.2.symm))
  · exact h.ack_term hpos

theorem extends_elect (hvac : s.leader (s.term c) = none) :
    Extends s (s.elect c) where
  __ := Extends.refl s
  leader := fun {u d} hd => by
    simp only [Proto.elect, upd_apply]
    rw [if_neg]
    · exact hd
    · rintro rfl
      cases hvac.symm.trans hd
  elog := fun {u} hu => by
    simp only [Proto.elect, upd_apply]
    rw [if_neg]
    rintro rfl
    exact hu hvac
  llog := fun {u} hu => by
    simp only [Proto.elect, upd_apply]
    rw [if_neg]
    rintro rfl
    exact hu hvac
  ack := fun u f => by
    simp only [Proto.elect, upd2_apply]
    split
    · next heq =>
      rw [heq.1, (h.vacant hvac).2 f]
      exact Nat.zero_le _
    · exact le_rfl

theorem Inv.elect {S : Finset ι} (hrole : s.role c = .candidate) (hS : Q.is_quorum S)
    (hvotes : ∀ f ∈ S, ∃ v, s.vote (s.term c) f = some v ∧ v.candidate = c) :
    Inv Q (s.elect c) := by
  have hvac := h.vacant_of_votes hrole hS hvotes
  have hext := extends_elect h hvac
  have hll : ∀ {u}, (s.elect c).leader u ≠ none → u ≠ s.term c → s.leader u ≠ none := by
    intro u hu hne
    simpa only [Proto.elect, upd_apply, if_neg hne] using hu
  have hleader : (s.elect c).leader (s.term c) = some c := upd_self _ _ _
  have helog : (s.elect c).elog (s.term c) = s.log c := upd_self _ _ _
  have hllog : (s.elect c).llog (s.term c) = s.log c := upd_self _ _ _
  have helog' : ∀ {u}, u ≠ s.term c → (s.elect c).elog u = s.elog u := fun hne => if_neg hne
  have hllog' : ∀ {u}, u ≠ s.term c → (s.elect c).llog u = s.llog u := fun hne => if_neg hne
  have hack : ∀ {u f}, (s.elect c).ack u f = if u = s.term c ∧ f = c then (s.log c).length
      else s.ack u f := rfl
  -- only the leader itself has acknowledged anything in the new term
  have hnone : ∀ {f n}, n ≤ (s.elect c).ack (s.term c) f → f ≠ c → n = 0 := by
    intro f n hn hne
    rw [hack, if_neg (fun heq => hne heq.2), (h.vacant hvac).2 f] at hn
    omega
  have hold : ∀ {t f n}, t ≠ s.term c → n ≤ (s.elect c).ack t f → n ≤ s.ack t f := by
    intro t f n hne hn
    rwa [hack, if_neg (fun heq => hne heq.1)] at hn
  refine { h with
    vote_backed := fun hv => (h.vote_backed hv).extends hext
    vote_early := ?_
    cand_backed := fun hd => (h.cand_backed hd).extends hext
    leader_cand := ?_
    leader_votes := ?_
    elog_llog := ?_
    llog_own := ?_
    llog_backed := ?_
    vacant := ?_
    role_cand := ?_
    role_lead := ?_
    log_backed := fun f => (h.log_backed f).extends hext
    ack_le := ?_
    ack_term := h.ack_term_upd2
    holds := ?_
    voted_with := ?_
    committed := fun g => (h.committed g).extends_same h hext le_rfl }
  · intro u f v hv hno
    by_cases hu : u = s.term c
    · rw [hu, hleader] at hno
      cases hno
    · exact h.vote_early hv (by simpa only [Proto.elect, upd_apply, if_neg hu] using hno)
  · intro u d hd
    by_cases hu : u = s.term c
    · subst hu
      rw [hleader] at hd
      cases hd
      rw [helog]
      exact (h.role_cand hrole).1
    · rw [helog' hu]
      exact h.leader_cand (by simpa only [Proto.elect, upd_apply, if_neg hu] using hd)
  · intro u d hd
    by_cases hu : u = s.term c
    · subst hu
      rw [hleader] at hd
      cases hd
      refine ⟨S, hS, fun f hf => ?_⟩
      obtain ⟨v, hv, hvc⟩ := hvotes f hf
      exact ⟨v, hv, hvc, h.vote_early hv hvac⟩
    · exact h.leader_votes (by simpa only [Proto.elect, upd_apply, if_neg hu] using hd)
  · intro u hu
    by_cases huc : u = s.term c
    · rw [huc, helog, hllog]
    · rw [helog' huc, hllog' huc]
      exact h.elog_llog (hll hu huc)
  · intro u hu i e he hi
    by_cases huc : u = s.term c
    · rw [huc, hllog] at he
      rw [huc, helog] at hi
      exact absurd (List.getElem?_eq_some_iff.mp he).1 (by omega)
    · rw [hllog' huc] at he
      rw [helog' huc] at hi
      exact h.llog_own (hll hu huc) i e he hi
  · intro u hu
    by_cases huc : u = s.term c
    · rw [huc, hllog]
      exact (h.log_backed c).extends hext
    · rw [hllog' huc]
      exact (h.llog_backed (hll hu huc)).extends hext
  · intro u hu
    by_cases huc : u = s.term c
    · rw [huc, hleader] at hu
      cases hu
    · have hu' : s.leader u = none := by
        simpa only [Proto.elect, upd_apply, if_neg huc] using hu
      refine ⟨by rw [hllog' huc]; exact (h.vacant hu').1, fun f => ?_⟩
      rw [hack, if_neg (fun heq => huc heq.1)]
      exact (h.vacant hu').2 f
  · intro d hd
    by_cases hdc : d = c
    · subst hdc
      simp [Proto.elect] at hd
    · simp only [Proto.elect, upd_apply, if_neg hdc] at hd
      obtain ⟨hcd, hld⟩ := h.role_cand hd
      refine ⟨hcd, ?_⟩
      simp only [Proto.elect, upd_apply]
      split
      · exact fun heq => hdc (some.inj heq).symm
      · exact hld
  · intro d hd
    by_cases hdc : d = c
    · subst hdc
      exact ⟨hleader, hllog⟩
    · simp only [Proto.elect, upd_apply, if_neg hdc] at hd
      obtain ⟨hld, hlog⟩ := h.role_lead hd
      have hne : s.term d ≠ s.term c := by
        intro heq
        rw [heq, hvac] at hld
        cases hld
      exact ⟨hext.leader hld, (hllog' hne).trans hlog⟩
  · intro u f
    rw [hack]
    by_cases huc : u = s.term c
    · subst huc
      rw [hllog]
      split
      · exact le_rfl
      · rw [(h.vacant hvac).2 f]
        exact Nat.zero_le _
    · rw [if_neg (fun heq => huc heq.1), hllog' huc]
      exact h.ack_le u f
  · intro t f n hn hw
    by_cases htc : t = s.term c
    · subst htc
      rw [hllog]
      by_cases hfc : f = c
      · subst hfc
        exact take_prefix n _
      · simp [hnone hn hfc]
    · rw [hllog' htc] at hw ⊢
      refine h.holds (hold htc hn) fun u htu huf hlu => ?_
      have := hw u htu huf (hext.elected hlu)
      rwa [hext.elog hlu] at this
  · intro t f n u v hv hearly htu hn hw
    by_cases htc : t = s.term c
    · subst htc
      by_cases hfc : f = c
      · subst hfc
        exact absurd (h.vote_le hv) (by omega)
      · simp [hnone hn hfc]
    · rw [hllog' htc] at hw ⊢
      refine h.voted_with hv hearly htu (hold htc hn) fun w htw hwu hlw => ?_
      have := hw w htw hwu (hext.elected hlw)
      rwa [hext.elog hlw] at this

theorem extends_append {e : E} (hrole : s.role c = .leader) :
    Extends s (s.append c e) where
  __ := Extends.refl s
  llog := fun {u} _ => by
    simp only [Proto.append, upd_apply]
    split
    · next heq =>
      rw [heq, (h.role_lead hrole).2]
      exact prefix_append _ _
    · exact prefix_rfl
  ack := fun u f => by
    simp only [Proto.append, upd2_apply]
    split
    · next heq =>
      have := h.ack_le u f
      rw [heq.1, (h.role_lead hrole).2] at this
      rw [heq.1, length_append]
      omega
    · exact le_rfl

theorem Inv.append {e : E} (hrole : s.role c = .leader) (he : Termed.term e = s.term c) :
    Inv Q (s.append c e) := by
  have hext : Extends s (s.append c e) := extends_append h hrole
  obtain ⟨hlead, hlog⟩ := h.role_lead hrole
  have hl : s.leader (s.term c) ≠ none := by simp [hlead]
  have hllog : (s.append c e).llog (s.term c) = s.log c ++ [e] := upd_self _ _ _
  have hllog' : ∀ {u}, u ≠ s.term c → (s.append c e).llog u = s.llog u := fun hne => if_neg hne
  have hlogc : (s.append c e).log c = s.log c ++ [e] := upd_self _ _ _
  have hlog' : ∀ {f}, f ≠ c → (s.append c e).log f = s.log f := fun hne => if_neg hne
  have hack : ∀ {u f}, (s.append c e).ack u f = if u = s.term c ∧ f = c then
      (s.log c ++ [e]).length else s.ack u f := rfl
  have helen : (s.elog (s.term c)).length ≤ (s.log c).length := hlog ▸ (h.elog_llog hl).length_le
  -- the new entry lies behind what the leader was elected with
  have hbacked : Backed (s.append c e) (s.log c ++ [e]) := by
    intro i x hx
    rcases lt_or_ge i (s.log c).length with hi | hi
    · rw [List.getElem?_append_left hi] at hx
      rw [take_append_of_le_length hi]
      exact (h.log_backed c).extends hext i x hx
    · have hi' : i = (s.log c).length := by
        have := (List.getElem?_eq_some_iff.mp hx).1
        simp at this
        omega
      subst hi'
      simp only [List.getElem?_concat_length, Option.some.injEq] at hx
      subst hx
      rw [he, hllog, take_of_length_le (by simp)]
      exact ⟨hl, helen, List.prefix_rfl⟩
  -- prefixes acknowledged before are the same prefixes now
  have htake : ∀ {t n f}, n ≤ s.ack t f →
      ((s.append c e).llog t).take n = (s.llog t).take n := by
    intro t n f hn
    by_cases ht : t = s.term c
    · subst ht
      have := h.ack_le (s.term c) f
      rw [hlog] at this
      rw [hllog, hlog, take_append_of_le_length (by omega)]
    · rw [hllog' ht]
  refine { h with
    vote_backed := fun hv => (h.vote_backed hv).extends hext
    cand_backed := fun hd => (h.cand_backed hd).extends hext
    elog_llog := fun hu => (h.elog_llog hu).trans (hext.llog hu)
    llog_own := ?_
    llog_backed := ?_
    vacant := ?_
    role_cand := ?_
    role_lead := ?_
    log_backed := ?_
    log_le := ?_
    ack_le := ?_
    ack_term := h.ack_term_upd2
    holds := ?_
    voted_with := ?_
    committed := ?_ }
  · intro u hu i x hx hi
    by_cases huc : u = s.term c
    · subst huc
      rw [hllog] at hx
      rcases lt_or_ge i (s.log c).length with hlt | hge
      · rw [List.getElem?_append_left hlt, ← hlog] at hx
        exact h.llog_own hl i x hx hi
      · have hi' : i = (s.log c).length := by
          have := (List.getElem?_eq_some_iff.mp hx).1
          simp at this
          omega
        subst hi'
        simp only [List.getElem?_concat_length, Option.some.injEq] at hx
        exact hx ▸ he
    · rw [hllog' huc] at hx
      exact h.llog_own hu i x hx hi
  · intro u hu
    by_cases huc : u = s.term c
    · rw [huc, hllog]
      exact hbacked
    · rw [hllog' huc]
      exact (h.llog_backed hu).extends hext
  · intro u hu
    have huc : u ≠ s.term c := by
      rintro rfl
      exact hl hu
    refine ⟨by rw [hllog' huc]; exact (h.vacant hu).1, fun f => ?_⟩
    rw [hack, if_neg (fun heq => huc heq.1)]
    exact (h.vacant hu).2 f
  · intro d hd
    have hdc : d ≠ c := by
      rintro rfl
      cases hrole.symm.trans hd
    rw [hlog' hdc]
    exact h.role_cand hd
  · intro d hd
    by_cases hdc : d = c
    · subst hdc
      exact ⟨hlead, by rw [hlogc]; exact hllog⟩
    · obtain ⟨hld, hlg⟩ := h.role_lead hd
      have hne : s.term d ≠ s.term c := by
        intro heq
        rw [heq, hlead] at hld
        exact hdc (some.inj hld).symm
      rw [hlog' hdc]
      exact ⟨hld, (hllog' hne).trans hlg⟩
  · intro f
    by_cases hfc : f = c
    · rw [hfc, hlogc]
      exact hbacked
    · rw [hlog' hfc]
      exact (h.log_backed f).extends hext
  · intro f x hx
    by_cases hfc : f = c
    · subst hfc
      rw [hlogc] at hx
      rcases mem_append.mp hx with hx | hx
      · exact h.log_le f x hx
      · rw [mem_singleton.mp hx]
        exact le_of_eq he
    · rw [hlog' hfc] at hx
      exact h.log_le f x hx
  · intro u f
    rw [hack]
    split
    · next heq => rw [heq.1, hllog]
    · refine le_trans (h.ack_le u f) ?_
      by_cases huc : u = s.term c
      · subst huc
        rw [hllog, hlog, length_append]
        omega
      · rw [hllog' huc]
  · intro t f n hn hw
    rw [hack] at hn
    split at hn
    · next heq =>
      rw [heq.1, heq.2, hllog, hlogc]
      exact take_prefix n _
    · rw [htake hn] at hw ⊢
      have := h.holds hn hw
      by_cases hfc : f = c
      · subst hfc
        rw [hlogc]
        exact this.trans (List.prefix_append _ _)
      · rw [hlog' hfc]
        exact this
  · intro t f n u v hv hearly htu hn hw
    rw [hack] at hn
    split at hn
    · next heq =>
      obtain ⟨rfl, rfl⟩ := heq
      exact absurd (h.vote_le hv) (by omega)
    · rw [htake hn] at hw ⊢
      exact h.voted_with hv hearly htu hn hw
  · intro f
    refine (h.committed f).extends h hext le_rfl fun t n _ _ _ hpre => hpre.trans ?_
    by_cases hfc : f = c
    · subst hfc
      rw [hlogc]
      exact List.prefix_append _ _
    · rw [hlog' hfc]

/-! ### Followers -/

omit h in
omit [Termed E] in
theorem extends_accept : Extends s (s.accept f m) where
  __ := Extends.refl s
  ack := fun u g => by
    simp only [Proto.accept, upd2_apply]
    split
    · next heq =>
      rw [heq.1, heq.2]
      exact Nat.le_max_left _ _
    · exact le_rfl

theorem Inv.accept (hl : s.leader (s.term f) ≠ none) (hm : m ≤ (s.llog (s.term f)).length) :
    Inv Q (s.accept f m) := by
  have hext : Extends s (s.accept f m) := extends_accept
  set L' := adopt (s.log f) ((s.llog (s.term f)).take m) with hL'
  have hlogf : (s.accept f m).log f = L' := upd_self _ _ _
  have hlog' : ∀ {g}, g ≠ f → (s.accept f m).log g = s.log g := fun hne => if_neg hne
  have hack : ∀ {u g}, (s.accept f m).ack u g = if u = s.term f ∧ g = f then
      max (s.ack (s.term f) f) m else s.ack u g := rfl
  have hrole' : ∀ {g r}, r ≠ .follower → (s.accept f m).role g = r → g ≠ f ∧ s.role g = r := by
    intro g r hr hg
    simp only [Proto.accept, upd_apply] at hg
    split at hg
    · exact absurd hg.symm hr
    · next hne => exact ⟨hne, hg⟩
  have hcases : L' = s.log f ∨ L' = (s.llog (s.term f)).take m := by
    simp only [hL', adopt]
    split
    · exact .inl rfl
    · exact .inr rfl
  refine { h with
    vacant := ?_
    role_cand := ?_
    role_lead := ?_
    log_backed := ?_
    log_le := ?_
    ack_le := ?_
    ack_term := h.ack_term_upd2
    holds := ?_
    voted_with := ?_
    committed := ?_ }
  · intro u hu
    refine ⟨(h.vacant hu).1, fun g => ?_⟩
    rw [hack, if_neg]
    · exact (h.vacant hu).2 g
    · rintro ⟨rfl, -⟩
      exact hl hu
  · intro d hd
    obtain ⟨hne, hd⟩ := hrole' (by decide) hd
    rw [hlog' hne]
    exact h.role_cand hd
  · intro d hd
    obtain ⟨hne, hd⟩ := hrole' (by decide) hd
    rw [hlog' hne]
    exact h.role_lead hd
  · intro g
    by_cases hgf : g = f
    · subst hgf
      rw [hlogf]
      rcases hcases with heq | heq
      · rw [heq]
        exact h.log_backed g
      · rw [heq]
        exact (h.llog_backed hl).of_isPrefix (List.take_prefix m _)
    · rw [hlog' hgf]
      exact h.log_backed g
  · intro g e he
    by_cases hgf : g = f
    · subst hgf
      rw [hlogf] at he
      rcases hcases with heq | heq
      · exact h.log_le g e (heq ▸ he)
      · rw [heq] at he
        exact h.llog_le hl e (mem_of_mem_take he)
    · rw [hlog' hgf] at he
      exact h.log_le g e he
  · intro u g
    rw [hack]
    split
    · next heq =>
      rw [heq.1]
      exact Nat.max_le.mpr ⟨h.ack_le _ _, hm⟩
    · exact h.ack_le u g
  · intro t g n hn hw
    change ∀ u, t < u → u ≤ s.term g → s.leader u ≠ none → (s.llog t).take n <+: s.elog u at hw
    change (s.llog t).take n <+: (s.accept f m).log g
    by_cases hgf : g = f
    · subst hgf
      rw [hlogf]
      rw [hack] at hn
      by_cases ht : t = s.term g
      · subst ht
        rw [if_pos ⟨rfl, rfl⟩] at hn
        -- acknowledged before, or just now
        rcases le_max_iff.mp hn with hle | hnm
        · exact prefix_adopt_of_common (h.holds hle hw) (List.take_prefix n _)
        · exact (take_prefix_take_left hnm).trans (prefix_adopt _ _)
      · rw [if_neg (fun heq => ht heq.1)] at hn
        rcases Nat.eq_zero_or_pos n with rfl | hpos
        · simp
        · have hlt : t < s.term g :=
            Nat.lt_of_le_of_ne (h.ack_term (lt_of_lt_of_le hpos hn)) ht
          have hcommon := (hw _ hlt le_rfl hl).trans (h.elog_llog hl)
          exact prefix_adopt_of_common (h.holds hn hw) hcommon
    · rw [hlog' hgf]
      rw [hack, if_neg (fun heq => hgf heq.2)] at hn
      exact h.holds hn hw
  · intro t g n u v hv hearly htu hn hw
    refine h.voted_with hv hearly htu ?_ hw
    rw [hack] at hn
    split at hn
    · next heq =>
      obtain ⟨rfl, rfl⟩ := heq
      exact absurd (h.vote_le hv) (by omega)
    · exact hn
  · intro g
    refine (h.committed g).extends h hext le_rfl fun t n hc htu hkn hpre => ?_
    by_cases hgf : g = f
    · subst hgf
      rw [hlogf]
      -- what is chosen is common to the node and the leader of its term
      have hall := h.chosen_llog hc htu hl
      exact prefix_adopt_of_common hpre ((take_prefix_take_left hkn).trans hall)
    · rw [hlog' hgf]
      exact hpre

/-! ### Commitment -/

omit h in
omit [Termed E] in
theorem extends_set_commit : Extends s (s.set_commit f k) :=
  { Extends.refl s with }

omit h in
omit [Termed E] in
theorem extends_restart : Extends s (s.restart f k) :=
  { Extends.refl s with }

theorem Inv.set_commit (hk : Settled Q s (s.term f) (s.log f) k) : Inv Q (s.set_commit f k) := by
  refine { h with committed := fun g => ?_ }
  have hg : Settled Q s (s.term g) (s.log g) (upd s.commit f k g) := by
    rw [upd_apply]
    split
    · next heq => exact heq ▸ hk
    · exact h.committed g
  exact hg.extends_same h extends_set_commit le_rfl

omit h in
omit [DecidableEq ι] in
theorem Settled.le {k' : Nat} (h : Settled Q s u L k) (hk : k' ≤ k) :
    Settled Q s u L k' := by
  rcases h with rfl | ⟨t, n, hc, htu, hkn, hpre⟩
  · exact .inl (by omega)
  · exact .inr ⟨t, n, hc, htu, le_trans hk hkn, (take_prefix_take_left hk).trans hpre⟩

theorem Inv.restart (hk : k ≤ s.commit f) : Inv Q (s.restart f k) := by
  have hrole' : ∀ {g r}, r ≠ .follower → (s.restart f k).role g = r → s.role g = r := by
    intro g r hr hg
    simp only [Proto.restart, upd_apply] at hg
    split at hg
    · exact absurd hg.symm hr
    · exact hg
  refine { h with
    role_cand := fun hd => h.role_cand (hrole' (by decide) hd)
    role_lead := fun hd => h.role_lead (hrole' (by decide) hd)
    committed := fun g => ?_ }
  have hg : Settled Q s (s.term g) (s.log g) (upd s.commit f k g) := by
    rw [upd_apply]
    split
    · next heq =>
      rw [heq]
      exact (h.committed f).le hk
    · exact h.committed g
  exact hg.extends_same h extends_restart le_rfl

end Framework
