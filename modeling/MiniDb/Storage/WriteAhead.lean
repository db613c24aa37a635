import MiniDb.Storage.CountedPages

/-! # The write-ahead rule

  Between the first write of a transaction to a file and its end, uncommitted
  pages reach the data file through evictions.  Every client operation is given
  by the disk operations it issues (`FileOp.io`), and a `Moment` is a disk with
  the number of log bytes known to be on stable storage.  The rule is then a
  property of every moment, also of those inside a call: a page of the file is
  as at the first write, or its content then is in the synced part of the log
  (`Ahead`). -/

namespace MiniDb

open Framework List Option

/-! ### Disk operations of the pool -/

def evict_io (f : PagedFile) (victim : Frame) : List IoOp :=
  if victim.dirty then
    if f.bp.no_steal && f.bp.steal_fn then
      match steal_undo f.wal (f.wal.next_lsn + (steal_begin f.wal).length) victim.page_id with
      | none => (steal_begin f.wal).map log_rec
      | some undo => wal_steal_io (steal_begin f.wal ++ undo) victim.page_id victim.data
    else [.data_write victim.page_id victim.data]
  else []

def pick_frame_io (f : PagedFile) : List IoOp :=
  match f.bp.frames.findIdx? fun fr => !fr.valid with
  | some _ => []
  | none =>
      match victim_loop (!f.bp.no_steal || f.bp.steal_fn) f.bp.frames 0 none with
      | none => []
      | some (_, victim) => evict_io f victim

def fetch_io (f : PagedFile) (page_id : Nat) : List IoOp :=
  match find_frame f.bp page_id with
  | some _ => []
  | none => pick_frame_io f

/-- The allocation writes the zero page, then the page is fetched. -/
def new_page_io (f : PagedFile) : List IoOp :=
  let a := pager_allocate f.wal.data
  .data_write f.wal.data.num_pages Page.zero ::
    match a.2 with
    | none => []
    | some id => fetch_io { f with wal := { f.wal with data := a.1 } } id

def FileOp.io (f : PagedFile) : FileOp → List IoOp
  | .fetch page_id => fetch_io f page_id
  | .new_page => new_page_io f
  | .store _ _ => []
  | .unpin _ _ => []

/-! ### Moments -/

/-- A disk, and how many bytes of its log are known to be on stable storage. -/
structure Moment where
  disk : Disk
  synced : Nat

def Moment.apply (m : Moment) (op : IoOp) : Moment where
  disk := m.disk.apply op
  synced :=
    match op with
    | .fsync_log => m.disk.log.length
    | .log_truncate n => min m.synced n
    | _ => m.synced

def Moment.run (m : Moment) (ops : List IoOp) : Moment := ops.foldl Moment.apply m

variable (m : Moment)

@[simp] theorem Moment.run_nil : m.run [] = m := rfl

@[simp] theorem Moment.run_cons (op : IoOp) (ops : List IoOp) :
    m.run (op :: ops) = (m.apply op).run ops := rfl

theorem Moment.run_append (ops ops' : List IoOp) :
    m.run (ops ++ ops') = (m.run ops).run ops' := by
  simp [Moment.run]

theorem Moment.run_disk (ops : List IoOp) : (m.run ops).disk = m.disk.run ops := by
  induction ops generalizing m with
  | nil => rfl
  | cons op ops ih => exact ih (m.apply op)

/-- `P` holds at every moment while `ops` are issued, also inside a log write. -/
def Always (m : Moment) (ops : List IoOp) (P : Moment → Prop) : Prop :=
  ∀ k b, P (m.run (cut_io ops k b))

namespace Always

variable {m : Moment} {op : IoOp} {ops ops' : List IoOp} {P : Moment → Prop}

theorem nil (h : P m) : Always m [] P := by
  intro k b
  simpa using h

theorem cons (h : P m)
    (hpart : ∀ bs, op = .log_write bs → ∀ b, P (m.apply (.log_write (bs.take b))))
    (hrest : Always (m.apply op) ops P) : Always m (op :: ops) P := by
  intro k b
  cases k with
  | zero =>
    rw [cut_io_cons_zero]
    cases op with
    | log_write bs => exact hpart bs rfl b
    | _ => exact h
  | succ k =>
    rw [cut_io_cons_succ]
    exact hrest k b

theorem append (h : Always m ops P) (h' : Always (m.run ops) ops' P) :
    Always m (ops ++ ops') P := by
  intro k b
  rcases cut_io_append ops ops' k b with ⟨j, hj⟩ | ⟨j, hj⟩
  · rw [hj]
    exact h j b
  · rw [hj, Moment.run_append]
    exact h' j b

end Always

/-! ### The rule -/

/-- A before-image of page `p`. -/
def Rec.undoes (p : Nat) : Rec → Bool
  | .undo _ pid _ => pid == p
  | _ => false

/-- The rule at one moment; `d` is the disk at the first write of the transaction
    and `base` its page count.  The log written since then is `rs` and perhaps
    part of one more record, and `rs'` of it is on stable storage. -/
def Ahead (d : Disk) (base : Nat) (m : Moment) : Prop :=
  ∀ p < base, m.disk.data[p]? = d.data[p]? ∨
    ∃ rs rs' t lsn lsn' before,
      m.disk.log = d.log ++ encode_all rs ++ t ∧ Torn t ∧ (∀ r ∈ rs, r.fits) ∧
      rs.head? = some (.begin lsn base) ∧
      d.data[p]? = some before ∧ rs.filter (Rec.undoes p) = [.undo lsn' p before] ∧
      rs' <+: rs ∧ .undo lsn' p before ∈ rs' ∧
      d.log.length + (encode_all rs').length ≤ m.synced

/-- The records of a transaction. -/
structure Records (d : Disk) (base : Nat) (rs : List Rec) : Prop where
  fits : ∀ r ∈ rs, r.fits
  head : rs = [] ∨ ∃ lsn, rs.head? = some (.begin lsn base)
  steals : ∀ r ∈ rs, r.is_steal
  nodup : ((undo_images rs).map Prod.fst).Nodup
  val : ∀ u ∈ undo_images rs, u.1 < base → d.data[u.1]? = some u.2

/-- A moment between two system calls: `rs` is logged and `rs'` of it is synced. -/
structure Logged (d : Disk) (base : Nat) (m : Moment) (rs rs' : List Rec) : Prop where
  log : m.disk.log = d.log ++ encode_all rs
  recs : Records d base rs
  durable : rs' <+: rs
  synced : rs' = [] ∨ d.log.length + (encode_all rs').length ≤ m.synced
  keep : ∀ p < base, p ∉ (undo_images rs').map Prod.fst → m.disk.data[p]? = d.data[p]?

variable {d : Disk} {base : Nat} {m : Moment} {rs rs' new : List Rec}

theorem mem_undo_images {u : StagedPage} : u ∈ undo_images rs → ∃ lsn, .undo lsn u.1 u.2 ∈ rs := by
  induction rs with
  | nil => exact nofun
  | cons r rs ih =>
    intro hu
    cases r with
    | undo lsn pid before =>
      rcases mem_cons.1 hu with rfl | hu
      · exact ⟨lsn, mem_cons_self⟩
      · exact (ih hu).imp fun _ h => mem_cons_of_mem _ h
    | _ => exact (ih hu).imp fun _ h => mem_cons_of_mem _ h

variable {lsn p : Nat} {x : Page} {f : PagedFile}

theorem undo_mem_images : .undo lsn p x ∈ rs → (p, x) ∈ undo_images rs := by
  induction rs with
  | nil => exact nofun
  | cons r rs ih =>
    intro hr
    cases r with
    | undo lsn' pid before =>
      rcases mem_cons.1 hr with heq | hr
      · cases heq
        exact mem_cons_self
      · exact mem_cons_of_mem _ (ih hr)
    | _ => exact ih ((mem_cons.1 hr).resolve_left nofun)

/-- With one before-image a page at most, a before-image is the only one of its page. -/
theorem filter_undoes (hnodup : ((undo_images rs).map Prod.fst).Nodup) (hmem : .undo lsn p x ∈ rs) :
    rs.filter (Rec.undoes p) = [.undo lsn p x] := by
  -- no record of `p` is left in a list without its image
  have hnone : ∀ rs : List Rec, p ∉ (undo_images rs).map Prod.fst →
      rs.filter (Rec.undoes p) = [] := by
    intro rs hp
    refine filter_eq_nil_iff.2 fun r hr hu => ?_
    cases r with
    | undo lsn' q y =>
      obtain rfl : q = p := by simpa [Rec.undoes] using hu
      exact hp (mem_map_of_mem (undo_mem_images hr))
    | _ => cases hu
  induction rs with
  | nil => cases hmem
  | cons r rs ih =>
    cases r with
    | undo lsn' q y =>
      simp only [undo_images, map_cons, nodup_cons] at hnodup
      rcases mem_cons.1 hmem with heq | hmem
      · cases heq
        rw [filter_cons_of_pos (by simp [Rec.undoes]), hnone rs hnodup.1]
      · have hne : q ≠ p := by
          rintro rfl
          exact hnodup.1 (mem_map_of_mem (undo_mem_images hmem))
        rw [filter_cons_of_neg (by simp [Rec.undoes, hne]), ih hnodup.2 hmem]
    | _ =>
      rw [filter_cons_of_neg (by simp [Rec.undoes])]
      exact ih hnodup ((mem_cons.1 hmem).resolve_left (by simp))

/-- The rule holds between two system calls, and while a record is being written. -/
theorem Logged.ahead_torn (h : Logged d base m rs rs') {t : List UInt8} (ht : Torn t) :
    Ahead d base ⟨{ m.disk with log := m.disk.log ++ t }, m.synced⟩ := by
  intro p hp
  by_cases hmem : p ∈ (undo_images rs').map Prod.fst
  · obtain ⟨⟨q, before⟩, hu, rfl⟩ := mem_map.1 hmem
    obtain ⟨lsn', hundo⟩ := mem_undo_images hu
    have hin := h.durable.subset hundo
    have hne : rs' ≠ [] := ne_nil_of_mem hundo
    obtain ⟨lsn, hhead⟩ := h.recs.head.resolve_left (ne_nil_of_mem hin)
    refine .inr ⟨rs, rs', t, lsn, lsn', before, ?_, ht, h.recs.fits, hhead,
      h.recs.val _ (undo_mem_images hin) hp, filter_undoes h.recs.nodup hin, h.durable, hundo,
      h.synced.resolve_left hne⟩
    rw [h.log]
  · exact .inl (h.keep p hp hmem)

theorem Logged.ahead (h : Logged d base m rs rs') : Ahead d base m := by
  have := h.ahead_torn Torn.nil
  rwa [append_nil] at this

/-! ### The rule while a steal is under way -/

theorem Records.of_append (h : Records d base (rs ++ new)) : Records d base rs where
  fits r hr := h.fits r (mem_append_left _ hr)
  head := by
    cases rs with
    | nil => exact .inl rfl
    | cons r rs => exact .inr (h.head.resolve_left nofun)
  steals r hr := h.steals r (mem_append_left _ hr)
  nodup := by
    have hall := h.nodup
    rw [undo_images_append, map_append] at hall
    exact hall.sublist (sublist_append_left _ _)
  val u hu := h.val u (by rw [undo_images_append]; exact mem_append_left _ hu)

/-- One more record in the log, not yet synced. -/
theorem Logged.log_rec (h : Logged d base m rs rs') {r : Rec} (hr : Records d base (rs ++ [r])) :
    Logged d base (m.apply (log_rec r)) (rs ++ [r]) rs' where
  log := by
    change m.disk.log ++ r.encode = _
    rw [h.log, encode_all_append, append_assoc]
    simp [encode_all]
  recs := hr
  durable := h.durable.trans (prefix_append _ _)
  __ := h

/-- The moments while records are logged. -/
theorem Logged.log_recs (h : Logged d base m rs rs') (hnew : Records d base (rs ++ new)) :
    Always m (new.map MiniDb.log_rec) (Ahead d base) ∧
      Logged d base (m.run (new.map MiniDb.log_rec)) (rs ++ new) rs' := by
  -- the records are written one by one; each one makes `rs` longer
  induction new generalizing m rs with
  | nil =>
    rw [append_nil]
    exact ⟨.nil h.ahead, h⟩
  | cons r new ih =>
    have hsplit : rs ++ r :: new = (rs ++ [r]) ++ new := by simp
    rw [hsplit] at hnew ⊢
    have hone := h.log_rec hnew.of_append
    obtain ⟨halways, hdone⟩ := ih hone hnew
    refine ⟨.cons h.ahead (fun bs hbs b => ?_) halways, hdone⟩
    cases hbs
    rcases lt_or_ge b r.encode.length with hb | hb
    · refine h.ahead_torn (torn_take (fun lsn heq => ?_) hb)
      have hsteal := hnew.steals r (by simp)
      rw [heq] at hsteal
      exact hsteal
    · rw [take_of_length_le hb]
      exact hone.ahead

/-- The moments of a steal: the records, the `fsync`, and only then the page. -/
theorem Logged.steal (h : Logged d base m rs rs) (hnew : Records d base (rs ++ new))
    (hkeep : ∀ q < base, q ∉ (undo_images (rs ++ new)).map Prod.fst →
      (m.run (wal_steal_io new p x)).disk.data[q]? = d.data[q]?) :
    Always m (wal_steal_io new p x) (Ahead d base) ∧
      Logged d base (m.run (wal_steal_io new p x)) (rs ++ new) (rs ++ new) := by
  obtain ⟨halways, hlogged⟩ := h.log_recs hnew
  set m₁ := m.run (new.map MiniDb.log_rec) with hm₁
  have hlog := hlogged.log
  have hrun : m.run (wal_steal_io new p x) =
      ((m₁.apply .fsync_log).apply (.data_write p x)).apply .fsync_data := by
    rw [wal_steal_io, Moment.run_append]
    rfl
  -- after the `fsync` everything that is logged is safe
  have hsync : Logged d base (m₁.apply .fsync_log) (rs ++ new) (rs ++ new) := by
    refine ⟨hlog, hnew, prefix_refl _, .inr ?_, fun q hq hnot => ?_⟩
    · change _ ≤ m₁.disk.log.length
      rw [hlog, length_append]
    · refine hlogged.keep q hq fun hmem => hnot ?_
      rw [undo_images_append, map_append]
      exact mem_append_left _ hmem
  have hwritten : Logged d base ((m₁.apply .fsync_log).apply (.data_write p x)) (rs ++ new)
      (rs ++ new) := by
    refine ⟨?_, hnew, prefix_refl _, hsync.synced, fun q hq hnot => ?_⟩
    · simp only [Moment.apply, Disk.apply]
      split <;> exact hlog
    · have := hkeep q hq hnot
      rw [hrun] at this
      exact this
  have hdone : Logged d base (m.run (wal_steal_io new p x)) (rs ++ new) (rs ++ new) := by
    rw [hrun]
    exact ⟨hwritten.log, hnew, prefix_refl _, hwritten.synced, hwritten.keep⟩
  refine ⟨?_, hdone⟩
  rw [wal_steal_io]
  refine halways.append ?_
  refine .cons hlogged.ahead (by simp) ?_
  refine .cons hsync.ahead (by simp) ?_
  refine .cons hwritten.ahead (by simp) (.nil ?_)
  rw [hrun] at hdone
  exact hdone.ahead

/-- A page behind the old ones is written. -/
theorem Logged.data_write (h : Logged d base m rs rs') (hp : base ≤ p)
    (hlen : base ≤ m.disk.data.length) (x : Page) :
    Always m [.data_write p x] (Ahead d base) ∧
      Logged d base (m.apply (.data_write p x)) rs rs' := by
  have hdone : Logged d base (m.apply (.data_write p x)) rs rs' := by
    refine ⟨?_, h.recs, h.durable, h.synced, fun q hq hnot => ?_⟩
    · simp only [Moment.apply, Disk.apply]
      split <;> exact h.log
    · simp only [Moment.apply, Disk.apply]
      split
      · rw [getElem?_write_at (by omega), if_neg (by omega)]
        exact h.keep q hq hnot
      · exact h.keep q hq hnot
  exact ⟨.cons h.ahead (by simp) (.nil hdone.ahead), hdone⟩

/-! ### One operation -/

/-- The in-memory state of a log whose file is at the moment `m`. -/
structure LogState (w : Wal) (d : Disk) (base : Nat) (m : Moment) (rs : List Rec) : Prop where
  disk : m.disk = w.disk
  logged : Logged d base m rs rs
  base_pages : w.base_pages = base
  spilled : ∀ p, p ∈ (undo_images rs).map Prod.fst ↔ p ∈ w.spilled ∧ p < base
  begun : w.stole = true → rs ≠ []
  unbegun : w.stole = false → rs = []
  bound : base ≤ MAX_PAGES
  file : base ≤ w.data.file.length

/-- The moments of `ops` keep the rule, and end where the log `w'` is. -/
def Keeps (d : Disk) (base : Nat) (m : Moment) (ops : List IoOp) (w' : Wal) : Prop :=
  Always m ops (Ahead d base) ∧ ∃ rs', LogState w' d base (m.run ops) rs'

variable {w : Wal}

theorem LogState.keeps (h : LogState w d base m rs) : Keeps d base m [] w :=
  ⟨.nil h.logged.ahead, rs, h⟩

theorem Keeps.append {ops ops' : List IoOp} {w' : Wal} (h : Keeps d base m ops w)
    (h' : ∀ rs, LogState w d base (m.run ops) rs → Keeps d base (m.run ops) ops' w') :
    Keeps d base m (ops ++ ops') w' := by
  obtain ⟨halways, rs, htracks⟩ := h
  obtain ⟨halways', rs', htracks'⟩ := h' rs htracks
  refine ⟨halways.append halways', rs', ?_⟩
  rw [Moment.run_append]
  exact htracks'

/-- The `REC_BEGIN` of the first steal opens the records. -/
theorem LogState.begin_recs (h : LogState w d base m rs) :
    Records d base (rs ++ steal_begin w) ∧
      undo_images (rs ++ steal_begin w) = undo_images rs ∧ rs ++ steal_begin w ≠ [] := by
  unfold steal_begin
  split
  · next hst =>
    rw [append_nil]
    exact ⟨h.logged.recs, rfl, h.begun hst⟩
  · next hst =>
    obtain rfl := h.unbegun (by simpa using hst)
    refine ⟨⟨?_, .inr ⟨w.next_lsn, ?_⟩, ?_, ?_, ?_⟩, rfl, nofun⟩
    · intro r hr
      obtain rfl : r = .begin w.next_lsn w.base_pages := by simpa using hr
      exact h.base_pages.symm ▸ h.bound
    · simp [h.base_pages]
    · intro r hr
      obtain rfl : r = .begin w.next_lsn w.base_pages := by simpa using hr
      trivial
    · simp [undo_images]
    · simp [undo_images]

/-- The `REC_UNDO` of the first steal of an old page has the content of the first write. -/
theorem LogState.undo_recs (h : LogState w d base m rs) {undo : List Rec}
    (hundo : steal_undo w lsn p = some undo) :
    Records d base (rs ++ (steal_begin w ++ undo)) ∧
      ∀ q, q ∈ (undo_images (rs ++ (steal_begin w ++ undo))).map Prod.fst ↔
        q ∈ (if p ∈ w.spilled then w.spilled else w.spilled ++ [p]) ∧ q < base := by
  obtain ⟨hrecs, himages, hne⟩ := h.begin_recs
  rw [← append_assoc, undo_images_append, himages]
  unfold steal_undo at hundo
  by_cases hsp : p ∈ w.spilled
  · rw [if_pos hsp] at hundo
    cases hundo
    simp only [append_nil, undo_images, if_pos hsp]
    exact ⟨hrecs, h.spilled⟩
  rw [if_neg hsp] at hundo
  by_cases hold : p < w.base_pages
  · rw [if_pos hold] at hundo
    obtain ⟨before, hread, rfl⟩ := map_eq_some_iff.1 hundo
    have hp : p < base := h.base_pages ▸ hold
    have hnew : p ∉ (undo_images rs).map Prod.fst := fun hmem => hsp ((h.spilled p).1 hmem).1
    -- no before-image yet: the file still has the page of the first write
    have hval : d.data[p]? = some before := by
      rw [← h.logged.keep p hp hnew, h.disk]
      exact hread
    refine ⟨⟨?_, .inr ?_, ?_, ?_, ?_⟩, fun q => ?_⟩
    · intro r hr
      rcases mem_append.1 hr with hr | hr
      · exact hrecs.fits r hr
      · obtain rfl : r = .undo lsn p before := by simpa using hr
        exact hp.trans_le h.bound
    · obtain ⟨lsn', hhead⟩ := hrecs.head.resolve_left hne
      exact ⟨lsn', by rw [head?_append, hhead]; rfl⟩
    · intro r hr
      rcases mem_append.1 hr with hr | hr
      · exact hrecs.steals r hr
      · obtain rfl : r = .undo lsn p before := by simpa using hr
        trivial
    · rw [undo_images_append, himages, map_append]
      refine nodup_append.2 ⟨h.logged.recs.nodup, by simp [undo_images], ?_⟩
      rintro q hq q' hq' rfl
      obtain rfl : q = p := by simpa [undo_images] using hq'
      exact hnew hq
    · intro u hu hlt
      rw [undo_images_append, himages] at hu
      rcases mem_append.1 hu with hu | hu
      · exact h.logged.recs.val u hu hlt
      · obtain rfl : u = (p, before) := by simpa [undo_images] using hu
        exact hval
    · rw [if_neg hsp, map_append, mem_append, h.spilled q, mem_append]
      simp only [undo_images, map_cons, map_nil, mem_singleton]
      constructor
      · rintro (⟨hq, hlt⟩ | rfl)
        · exact ⟨.inl hq, hlt⟩
        · exact ⟨.inr rfl, hp⟩
      · rintro ⟨hq | rfl, hlt⟩
        · exact .inl ⟨hq, hlt⟩
        · exact .inr rfl
  · rw [if_neg hold] at hundo
    cases hundo
    simp only [append_nil, undo_images, if_neg hsp, mem_append, mem_singleton]
    refine ⟨hrecs, fun q => (h.spilled q).trans ⟨fun hq => ⟨.inl hq.1, hq.2⟩, ?_⟩⟩
    rintro ⟨hq | rfl, hlt⟩
    · exact ⟨hq, hlt⟩
    · exact absurd (h.base_pages.symm ▸ hlt) hold

variable (h : LogState f.wal d base m rs)

include h

/-- Writing out a victim, in a transaction. -/
theorem LogState.evict (hc : Counted f)
    (hmode : f.bp.no_steal = true ∧ f.bp.steal_fn = true) {v : Frame}
    (hv : v.page_id < f.wal.data.num_pages) :
    Keeps d base m (evict_io f v) (MiniDb.evict f v).1.wal := by
  unfold evict_io MiniDb.evict
  by_cases hd : v.dirty = true
  case neg =>
    simp only [if_neg hd]
    exact h.keeps
  simp only [if_pos hd, hmode.1, hmode.2, Bool.and_self, if_true, wal_steal]
  have hlt : v.page_id < f.wal.data.file.length := hv.trans_le hc.file
  have hmax : v.page_id < MAX_PAGES := hv.trans_le hc.bound
  have hread : ∃ undo, steal_undo f.wal (f.wal.next_lsn + (steal_begin f.wal).length) v.page_id =
      some undo := by
    unfold steal_undo pager_read
    split
    · exact ⟨_, rfl⟩
    split
    · rw [getElem?_eq_getElem hlt]
      exact ⟨_, rfl⟩
    · exact ⟨_, rfl⟩
  obtain ⟨undo, hundo⟩ := hread
  simp only [hundo]
  obtain ⟨hrecs, hspilled⟩ := h.undo_recs hundo
  -- the page that is written is new, or has its before-image in the log now
  have hcover : ∀ q < base,
      q ∉ (undo_images (rs ++ (steal_begin f.wal ++ undo))).map Prod.fst → q ≠ v.page_id := by
    rintro q hq hnot rfl
    refine hnot ((hspilled _).2 ⟨?_, hq⟩)
    split
    · assumption
    · simp
  have hdisk := Moment.run_disk m (wal_steal_io (steal_begin f.wal ++ undo) v.page_id v.data)
  have hdata : (m.disk.run (wal_steal_io (steal_begin f.wal ++ undo) v.page_id v.data)).data =
      write_at Page.zero f.wal.data.file v.page_id v.data := by
    rw [h.disk, wal_steal_io, Disk.run_append, run_log_recs]
    simp [Disk.apply, hmax, Wal.disk]
  obtain ⟨halways, hlogged⟩ := h.logged.steal (p := v.page_id) (x := v.data) hrecs (by
    intro q hq hnot
    rw [hdisk, hdata, getElem?_write_at_inside hlt.le, if_neg (hcover q hq hnot).symm]
    have hkeep := h.logged.keep q hq fun hmem => hnot (by
      rw [undo_images_append, map_append]
      exact mem_append_left _ hmem)
    rw [h.disk] at hkeep
    exact hkeep)
  refine ⟨halways, _, ?_, hlogged, h.base_pages, hspilled, fun _ => ?_, by simp, h.bound, ?_⟩
  · rw [hdisk, h.disk]
    rfl
  · rw [← append_assoc]
    exact fun hnil => h.begin_recs.2.2 (append_eq_nil_iff.1 hnil).1
  · change base ≤ (f.wal.disk.run _).data.length
    rw [← h.disk, hdata, length_write_at]
    exact h.file.trans (Nat.le_max_left _ _)

theorem LogState.pick_frame (hc : Counted f)
    (hmode : f.bp.no_steal = true ∧ f.bp.steal_fn = true) :
    Keeps d base m (pick_frame_io f) (MiniDb.pick_frame f).1.wal := by
  unfold pick_frame_io MiniDb.pick_frame
  cases hfree : f.bp.frames.findIdx? fun fr => !fr.valid with
  | some i => exact h.keeps
  | none =>
    dsimp only
    cases hvic : victim_loop (!f.bp.no_steal || f.bp.steal_fn) f.bp.frames 0 none with
    | none => exact h.keeps
    | some iv =>
      obtain ⟨i, v⟩ := iv
      have hmem : v ∈ f.bp.frames := by
        rcases victim_loop_some hvic with hnone | ⟨-, hget, -⟩
        · cases hnone
        · exact mem_of_getElem? hget
      have hvalid : v.valid = true := by
        simpa using findIdx?_eq_none_iff.mp hfree v hmem
      have hev := h.evict hc hmode (hc.frames v hmem hvalid)
      dsimp only
      split <;> exact hev

theorem LogState.fetch (hc : Counted f)
    (hmode : f.bp.no_steal = true ∧ f.bp.steal_fn = true) (p : Nat) :
    Keeps d base m (fetch_io f p) (bufpool_fetch f p).1.wal := by
  unfold fetch_io bufpool_fetch
  cases find_frame f.bp p with
  | some i => exact h.keeps
  | none =>
    have hmiss : Counted { f with bp := { f.bp with misses := f.bp.misses + 1 } } :=
      ⟨hc.file, hc.bound, hc.frames⟩
    have hpick : Keeps d base m (pick_frame_io f)
        (MiniDb.pick_frame { f with bp := { f.bp with misses := f.bp.misses + 1 } }).1.wal :=
      LogState.pick_frame (f := { f with bp := { f.bp with misses := f.bp.misses + 1 } }) h hmiss hmode
    dsimp only
    split
    · exact hpick
    · split <;> exact hpick

theorem LogState.new_page (hc : Counted f)
    (hmode : f.bp.no_steal = true ∧ f.bp.steal_fn = true) (hbase : base ≤ f.wal.data.num_pages) :
    Keeps d base m (new_page_io f) (bufpool_new_page f).1.wal := by
  have hlen : base ≤ m.disk.data.length := by
    rw [h.disk]
    exact h.file
  obtain ⟨halways, hlogged⟩ := h.logged.data_write hbase hlen Page.zero
  simp only [new_page_io, bufpool_new_page, pager_allocate_eq]
  by_cases hlt : f.wal.data.num_pages < MAX_PAGES
  · simp only [if_pos hlt]
    set w : Wal := { f.wal with
      data := ⟨write_at Page.zero f.wal.data.file f.wal.data.num_pages Page.zero,
        f.wal.data.num_pages + 1⟩ } with hw
    have hgrow : f.wal.data.file.length ≤ w.data.file.length := by
      rw [hw]
      dsimp only
      rw [length_write_at]
      exact Nat.le_max_left _ _
    have hwrite : Keeps d base m [.data_write f.wal.data.num_pages Page.zero] w := by
      refine ⟨halways, rs, ?_, hlogged, h.base_pages, h.spilled, h.begun, h.unbegun, h.bound, ?_⟩
      · simp only [Moment.run_cons, Moment.run_nil, Moment.apply, Disk.apply, if_pos hlt, h.disk]
        rfl
      · exact h.file.trans hgrow
    have hcount : Counted { f with wal := w } := by
      refine ⟨?_, hlt, fun fr hfr hv => Nat.lt_succ_of_lt (hc.frames fr hfr hv)⟩
      change f.wal.data.num_pages + 1 ≤ (write_at _ _ _ _).length
      rw [length_write_at]
      exact Nat.le_max_right _ _
    have hfetch : ∀ rs₁, LogState w d base (m.run [.data_write f.wal.data.num_pages Page.zero]) rs₁ →
        Keeps d base (m.run [.data_write f.wal.data.num_pages Page.zero])
          (fetch_io { f with wal := w } f.wal.data.num_pages)
          (bufpool_fetch { f with wal := w } f.wal.data.num_pages).1.wal :=
      fun _ h₁ => LogState.fetch h₁ hcount hmode _
    exact hwrite.append hfetch
  · -- the write of the new page fails, and nothing else is done
    simp only [if_neg hlt]
    refine ⟨halways, rs, ?_, hlogged, h.base_pages, h.spilled, h.begun, h.unbegun, h.bound, h.file⟩
    simp only [Moment.run_cons, Moment.run_nil, Moment.apply, Disk.apply, if_neg hlt, h.disk]

omit h

/-- Every operation of a transaction, and of the readers beside it. -/
theorem LogState.op {s : FileState} (h : LogState s.file.wal d base m rs) (hs : Sized s)
    (hact : s.active = true) (o : FileOp) : Keeps d base m (o.io s.file) (o.apply s.file).wal := by
  have hbase : base ≤ s.file.wal.data.num_pages := h.base_pages ▸ hs.base hact
  have hmode : s.file.bp.no_steal = true ∧ s.file.bp.steal_fn = true := hact ▸ hs.mode
  cases o with
  | fetch p => exact h.fetch hs.counted hmode p
  | new_page => exact h.new_page hs.counted hmode hbase
  | store p buf =>
    simp only [FileOp.apply, MiniDb.store, FileOp.io]
    split <;> exact h.keeps
  | unpin p is_dirty =>
    simp only [FileOp.apply, bufpool_unpin, FileOp.io]
    split <;> exact h.keeps

/-! ### Runs of the store -/

/-- The disk operations on file `i` of table `t` that an action issues. -/
def store_io (st : Store) (t i : Nat) (a : StoreAct) : List IoOp :=
  match st[t]? with
  | none => []
  | some tf =>
      match tf.files[i]? with
      | none => []
      | some f =>
          match a with
          | .begin_write _ _ => []
          | .op t' i' o => if t' = t ∧ i' = i then o.io f.file else []
          | .commit txn => if tf.writer_txn = txn then flush_commit_io f.file else []
          | .abort txn =>
              if tf.writer_txn = txn then
                wal_undo_io f.file.wal ++ [.data_truncate f.file.txn_pages]
              else []

/-- The disk operations on file `i` of table `t` in a run. -/
def store_run_io (t i : Nat) : Store → List StoreAct → List IoOp
  | _, [] => []
  | st, a :: as => store_io st t i a ++ store_run_io t i ((st.step a).getD st) as

/-- The files are not longer than `off_t` can say. -/
def disks_fit (dss : List (Disk × List Disk)) : Prop :=
  ∀ ds ∈ dss, ds.1.data.length ≤ MAX_PAGES ∧ ∀ d ∈ ds.2, d.data.length ≤ MAX_PAGES

theorem store_run_sized {dss : List (Disk × List Disk)} (hfit : disks_fit dss) {as : List StoreAct}
    {st : Store} (hrun : run Store.step (store_open dss) as = some st) : StoreAll Sized st := by
  have hsteps : Steps Store.step (fun _ _ => True) (store_open dss) as st :=
    .of_run (fun _ _ _ => trivial) hrun
  have hkeep : ∀ (s s' : FileState) a, Sized s → True → s.step a = some s' → Sized s' :=
    fun _ _ _ h _ hs => h.step hs
  refine hsteps.invariant (StoreAll Sized) (fun st a st' h _ hs => ?_) ?_
  · exact StoreAll.step hkeep h (fun _ _ _ => trivial) (fun _ _ _ _ => trivial) hs
  · intro t ht
    obtain ⟨ds, hds, rfl⟩ := mem_map.1 ht
    intro f hf
    rcases mem_cons.1 hf with rfl | hf
    · exact ⟨rfl, .opened (hfit ds hds).1⟩
    · obtain ⟨d, hd, rfl⟩ := mem_map.1 hf
      exact ⟨rfl, .opened ((hfit ds hds).2 d hd)⟩

/-- File `i` of table `t`, which `txn` writes, at the moment `m`. -/
def InTxn (st : Store) (t i txn : Nat) (d : Disk) (base : Nat) (m : Moment) : Prop :=
  ∃ tf f rs, st[t]? = some tf ∧ tf.files[i]? = some f ∧ tf.writer_txn = txn ∧
    f.active = true ∧ Sized f ∧ LogState f.file.wal d base m rs

section InTxn

variable {st st' : Store} {t i txn : Nat} {tf : TableFiles} {f : FileState}

/-- An action that leaves the table alone. -/
theorem InTxn.untouched (htf : st'[t]? = some tf)
    (hf : tf.files[i]? = some f) (hw : tf.writer_txn = txn) (hact : f.active = true)
    (hsized : Sized f) (htracks : LogState f.file.wal d base m rs) :
    Always m [] (Ahead d base) ∧ InTxn st' t i txn d base (m.run []) :=
  ⟨.nil htracks.logged.ahead, tf, f, rs, htf, hf, hw, hact, hsized, htracks⟩

/-- One action before the end of the transaction. -/
theorem InTxn.step (h : InTxn st t i txn d base m) (htxn : txn ≠ 0) {a : StoreAct}
    (hcommit : a ≠ .commit txn) (habort : a ≠ .abort txn) (hs : st.step a = some st') :
    Always m (store_io st t i a) (Ahead d base) ∧
      InTxn st' t i txn d base (m.run (store_io st t i a)) := by
  obtain ⟨tf, f, rs, htf, hf, hw, hact, hsized, htracks⟩ := h
  unfold store_io
  rw [htf]
  dsimp only
  rw [hf]
  dsimp only
  cases a with
  | begin_write t' txn' =>
    obtain ⟨-, hs⟩ := ite_none_left_eq_some.mp hs
    split at hs
    · cases hs
    next tf' htf' =>
    obtain ⟨tf₁, htf₁, rfl⟩ := map_eq_some_iff.mp hs
    by_cases ht : t' = t
    · -- the table has a writer: nothing happens, or another one is refused
      obtain rfl := ht
      obtain rfl := mem_unique htf htf'
      unfold table_begin_write at htf₁
      split at htf₁
      · cases htf₁
        have hset : (st.set t' tf)[t']? = some tf := by
          rw [List.getElem?_set_self (List.getElem?_eq_some_iff.1 htf).1]
        exact InTxn.untouched hset hf hw hact hsized htracks
      · rw [if_pos (by rw [hw]; exact htxn)] at htf₁
        cases htf₁
    · have hset : (st.set t' tf₁)[t]? = some tf := by rw [List.getElem?_set_ne ht, htf]
      exact InTxn.untouched hset hf hw hact hsized htracks
  | op t' i' o =>
    obtain ⟨tf', htf', hs⟩ : ∃ tf', st[t']? = some tf' ∧ ∃ f', tf'.files[i']? = some f' ∧
        (f'.step (.op o)).map (st.put t' i' tf') = some st' := by
      simp only [Store.step, Store.step_file] at hs
      split at hs
      · cases hs
      next tf' htf' =>
      split at hs
      · cases hs
      next f' hf' => exact ⟨tf', htf', f', hf', hs⟩
    obtain ⟨f', hf', hs⟩ := hs
    obtain ⟨f₁, hstep, rfl⟩ := map_eq_some_iff.mp hs
    dsimp only
    by_cases ht : t' = t
    · obtain rfl := ht
      obtain rfl := mem_unique htf htf'
      have hset : ∀ x, (st.set t' x)[t']? = some x := fun x => by
        rw [List.getElem?_set_self (List.getElem?_eq_some_iff.1 htf).1]
      by_cases hi : i' = i
      · obtain rfl := hi
        obtain rfl := mem_unique hf hf'
        rw [if_pos ⟨rfl, rfl⟩]
        obtain ⟨halways, rs₁, htracks₁⟩ := htracks.op hsized hact o
        obtain ⟨hfile, hact₁, -⟩ := step_op_file hstep
        rw [← hfile] at htracks₁
        refine ⟨halways, _, f₁, rs₁, hset _, ?_, hw, hact₁.trans hact, hsized.step hstep, htracks₁⟩
        exact List.getElem?_set_self (List.getElem?_eq_some_iff.1 hf).1
      · rw [if_neg fun hsame => hi hsame.2]
        refine InTxn.untouched (hset _) ?_ hw hact hsized htracks
        change (tf.files.set i' f₁)[i]? = some f
        rw [List.getElem?_set_ne hi, hf]
    · rw [if_neg fun hsame => ht hsame.1]
      have hset : (st.put t' i' tf' f₁)[t]? = some tf := by
        rw [Store.put, List.getElem?_set_ne ht, htf]
      exact InTxn.untouched hset hf hw hact hsized htracks
  | commit txn' =>
    obtain ⟨-, hs⟩ := ite_none_right_eq_some.mp hs
    cases hs
    have hne : tf.writer_txn ≠ txn' := fun heq => hcommit (by rw [← heq, hw])
    have hmap : (txn_commit_tables st txn')[t]? = some tf := by
      simp [txn_commit_tables, htf, hne]
    dsimp only
    rw [if_neg hne]
    exact InTxn.untouched hmap hf hw hact hsized htracks
  | abort txn' =>
    obtain ⟨-, hs⟩ := ite_none_right_eq_some.mp hs
    cases hs
    have hne : tf.writer_txn ≠ txn' := fun heq => habort (by rw [← heq, hw])
    have hmap : (txn_abort_tables st txn')[t]? = some tf := by
      simp [txn_abort_tables, htf, hne]
    dsimp only
    rw [if_neg hne]
    exact InTxn.untouched hmap hf hw hact hsized htracks

/-- All actions before the end of the transaction. -/
theorem InTxn.run (h : InTxn st t i txn d base m) (htxn : txn ≠ 0) {bs : List StoreAct}
    (hopen : ∀ a ∈ bs, a ≠ .commit txn ∧ a ≠ .abort txn)
    (hrun : Framework.run Store.step st bs = some st') :
    Always m (store_run_io t i st bs) (Ahead d base) ∧
      InTxn st' t i txn d base (m.run (store_run_io t i st bs)) := by
  induction bs generalizing st m with
  | nil =>
    cases hrun
    obtain ⟨tf, f, rs, htf, hf, hw, hact, hsized, htracks⟩ := h
    exact InTxn.untouched htf hf hw hact hsized htracks
  | cons a bs ih =>
    obtain ⟨st₁, hs, hrest⟩ := bind_eq_some_iff.1 hrun
    obtain ⟨hcommit, habort⟩ := hopen a mem_cons_self
    obtain ⟨halways, hin⟩ := h.step htxn hcommit habort hs
    obtain ⟨halways', hin'⟩ := ih hin (fun b hb => hopen b (mem_cons_of_mem _ hb)) hrest
    rw [store_run_io, hs, getD_some, Moment.run_append]
    exact ⟨halways.append halways', hin'⟩

/-- The first write of a transaction to a table. -/
theorem InTxn.begin (hall : StoreAll Sized st)
    (htf : st[t]? = some tf) (hfirst : tf.writer_txn = 0) (hf : tf.files[i]? = some f)
    (hs : st.step (.begin_write t txn) = some st') (synced : Nat) :
    txn ≠ 0 ∧ InTxn st' t i txn f.file.wal.disk f.file.wal.data.num_pages
      ⟨f.file.wal.disk, synced⟩ := by
  obtain ⟨htxn, hs⟩ := ite_none_left_eq_some.mp hs
  rw [htf] at hs
  obtain ⟨tf₁, htf₁, rfl⟩ := map_eq_some_iff.mp hs
  obtain ⟨hact, hsized⟩ := hall tf (mem_of_getElem? htf) f (mem_of_getElem? hf)
  have hidle : f.active = false := by simpa [hfirst] using hact
  rw [table_begin_write, if_neg (by rw [hfirst]; exact Ne.symm htxn),
    if_neg (by rw [hfirst]; exact not_not_intro rfl)] at htf₁
  cases htf₁
  have hstep : f.step .begin = some { f with file := begin_write f.file, active := true } := by
    rw [FileState.step, if_neg (by simp [hidle])]
  refine ⟨htxn, tf.all .begin txn, _, [], ?_, ?_, rfl, rfl, hsized.step hstep, ?_⟩
  · exact List.getElem?_set_self (List.getElem?_eq_some_iff.1 htf).1
  · simp [TableFiles.all, hf, FileState.force, hstep]
  · refine ⟨rfl, ⟨?_, ⟨by simp, .inl rfl, by simp, .nil, by simp [undo_images]⟩, List.prefix_refl _, .inl rfl,
      fun _ _ _ => rfl⟩, rfl, ?_, (fun h => by cases h), fun _ => rfl, hsized.counted.bound,
      hsized.counted.file⟩
    · simp
    · simp [undo_images, begin_write, wal_begin]

end InTxn

/-- From the first write of a transaction to a table up to its commit or rollback,
    every file of the table keeps the write-ahead rule, at every moment of whatever
    the transaction and the other sessions do. -/
theorem write_ahead_rule {dss : List (Disk × List Disk)} (hfit : disks_fit dss)
    {as bs : List StoreAct} {st st₁ st₂ : Store}
    (hrun : run Store.step (store_open dss) as = some st)
    {t i txn : Nat} {tf : TableFiles} {f : FileState} (htf : st[t]? = some tf)
    (hf : tf.files[i]? = some f) (hfirst : tf.writer_txn = 0)
    (hbegin : st.step (.begin_write t txn) = some st₁) (hrest : run Store.step st₁ bs = some st₂)
    (hopen : ∀ a ∈ bs, a ≠ .commit txn ∧ a ≠ .abort txn) (synced : Nat) :
    let ops := store_run_io t i st₁ bs
    Always ⟨f.file.wal.disk, synced⟩ ops (Ahead f.file.wal.disk f.file.wal.data.num_pages) ∧
      ∃ tf₂ f₂, st₂[t]? = some tf₂ ∧ tf₂.files[i]? = some f₂ ∧
        f₂.file.wal.disk = f.file.wal.disk.run ops := by
  obtain ⟨htxn, hin⟩ := InTxn.begin (store_run_sized hfit hrun) htf hfirst hf hbegin synced
  obtain ⟨halways, tf₂, f₂, rs, htf₂, hf₂, -, -, -, htracks⟩ := hin.run htxn hopen hrest
  refine ⟨halways, tf₂, f₂, htf₂, hf₂, ?_⟩
  rw [← htracks.disk, Moment.run_disk]

/-- A heap of one page, and an index of one page more than its pool has frames. -/
def wide_index : List (Disk × List Disk) :=
  [(⟨[Page.zero], []⟩, [⟨List.replicate (BTREE_FRAMES + 1) Page.zero, []⟩])]

/-- Change every page of the index: the last fetch steals the first page. -/
def rewrite_index : List StoreAct :=
  (List.range (BTREE_FRAMES + 1)).flatMap fun p =>
    [.op 0 1 (.fetch p), .op 0 1 (.store p (Page.fill 1)), .op 0 1 (.unpin p true)]

set_option maxRecDepth 100000 in
theorem write_ahead_rule_stolen_page : ∃ st₁ st₂ f,
    (store_open wide_index).step (.begin_write 0 1) = some st₁ ∧
      run Store.step st₁ rewrite_index = some st₂ ∧
      ((store_open wide_index)[0]?.bind fun tf => tf.files[1]?) = some f ∧
      (store_run_io 0 1 st₁ rewrite_index).length = 5 ∧
      Always ⟨f.file.wal.disk, 0⟩ (store_run_io 0 1 st₁ rewrite_index)
        (Ahead f.file.wal.disk f.file.wal.data.num_pages) := by
  have hfit : disks_fit wide_index := by
    intro ds hds
    obtain rfl : ds = _ := mem_singleton.1 hds
    refine ⟨by decide, fun d hd => ?_⟩
    obtain rfl : d = _ := mem_singleton.1 hd
    decide
  have hrun : ((store_open wide_index).step (.begin_write 0 1)).any (fun st₁ =>
      (run Store.step st₁ rewrite_index).isSome &&
        (store_run_io 0 1 st₁ rewrite_index).length == 5) = true := by decide +kernel
  obtain ⟨st₁, hst₁, hrest⟩ := (any_eq_true _ _).1 hrun
  rw [Bool.and_eq_true, beq_iff_eq] at hrest
  obtain ⟨st₂, hst₂⟩ := isSome_iff_exists.1 hrest.1
  have hnone : ∀ a ∈ rewrite_index, a ≠ .commit 1 ∧ a ≠ .abort 1 := by
    intro a ha
    obtain ⟨p, -, hp⟩ := mem_flatMap.1 ha
    simp only [mem_cons, not_mem_nil, or_false] at hp
    rcases hp with rfl | rfl | rfl <;> exact ⟨nofun, nofun⟩
  have hopened : run Store.step (store_open wide_index) [] = some (store_open wide_index) := rfl
  exact ⟨st₁, st₂, _, hst₁, hst₂, rfl, hrest.2,
    (write_ahead_rule hfit hopened rfl rfl rfl hst₁ hst₂ hnone 0).1⟩

end MiniDb
