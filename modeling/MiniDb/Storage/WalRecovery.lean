import MiniDb.Framework.Run
import MiniDb.Storage.WalCalls

/-! # Recovery over whole runs

  A `Session` is one open `Wal` together with the content its last committed
  transaction left.  Calls are issued one after another; the process may stop
  inside any of them, which leaves a cut of that call's disk operations.

  Recovery restores the committed content at every stop of every run, provided
  each commit leaves no page whose newest after-image in the log is older than
  the file (`fresh_commit`): redo replays every after-image of the retained
  log, and a stolen page that is not staged again has none of its own. -/

namespace MiniDb

open Framework List Option

structure Session where
  wal : Wal
  /-- Between `wal_begin` and `wal_commit` or `wal_undo`. -/
  in_txn : Bool
  /-- The counted data pages after the last committed transaction. -/
  committed : List Page

inductive Call where
  | alloc
  | begin
  | steal (page_id : Nat) (buf : Page)
  | stage (page_id : Nat) (buf : Page)
  | commit
  | undo

/-- The pages a pager counts. -/
def Pager.pages (data : Pager) : List Page := data.file.take data.num_pages

/-- A `Wal` opened on the files `d`, before any transaction. -/
def session_open (d : Disk) : Session :=
  { wal := wal_open d, in_txn := false, committed := (wal_open d).data.pages }

/-- Take a call that must have returned `0`. -/
def Session.take (s : Session) (r : Wal × Int) : Option Session :=
  if r.2 = 0 then some { s with wal := r.1 } else none

/-- One successful call.  Steals and stages are inside a transaction and on
    allocated pages. -/
def Session.step (s : Session) : Call → Option Session
  | .alloc =>
      match pager_allocate s.wal.data with
      | (data, some _) => some { s with wal := { s.wal with data := data } }
      | (_, none) => none
  | .begin => if s.in_txn then none else some { s with wal := wal_begin s.wal, in_txn := true }
  | .steal page_id buf =>
      if s.in_txn ∧ page_id < s.wal.data.num_pages then s.take (wal_steal s.wal page_id buf)
      else none
  | .stage page_id buf =>
      if s.in_txn ∧ page_id < s.wal.data.num_pages then s.take (wal_stage s.wal page_id buf)
      else none
  | .commit =>
      if s.in_txn ∧ (wal_commit s.wal).2 = 0 then
        some { wal := (wal_commit s.wal).1, in_txn := false,
               committed := (wal_commit s.wal).1.data.pages }
      else none
  | .undo =>
      if s.in_txn then some { s with wal := (wal_undo s.wal).1, in_txn := false } else none

/-- The disk operations a successful call issues, in order. -/
def call_io (w : Wal) : Call → List IoOp
  | .alloc => [.data_write w.data.num_pages Page.zero]
  | .begin => []
  | .steal page_id buf =>
      wal_steal_io (steal_begin w ++
        (steal_undo w (w.next_lsn + (steal_begin w).length) page_id).getD []) page_id buf
  | .stage _ _ => []
  | .commit => wal_commit_io w
  | .undo => wal_undo_io w

/-- The disk a stop inside `c` leaves: `k` operations done, and `b` bytes of a
    log write in progress. -/
def Session.stopped (s : Session) (c : Call) (k b : Nat) : Disk :=
  s.wal.disk.run (cut_io (call_io s.wal c) k b)

/-- A run of `wal_open` on `d` yields the pages `C`. -/
def Recovers (d : Disk) (C : List Page) : Prop :=
  ∀ p < C.length, (wal_open d).data.file[p]? = C[p]?

/-- When a commit starts, every stolen page that is not staged again has no
    after-image in the log, or its newest one is what the file holds. -/
def fresh_commit (s : Session) (c : Call) : Prop :=
  c = .commit → ∀ p ∈ s.wal.spilled, p ∉ s.wal.staged.map Prod.fst →
    last_write (redo_images s.wal.log) p = none ∨
      last_write (redo_images s.wal.log) p = s.wal.data.file[p]?

/-! ### The invariant -/

/-- An open transaction: what it has staged, stolen and logged. -/
structure OpenTxn (s : Session) (hist cur : List Rec) : Prop where
  staged : StagedOk s.wal.disk s.wal.staged
  staged_lt : ∀ u ∈ s.wal.staged, u.1 < s.wal.data.num_pages
  start : s.wal.txn_log_start = (encode_all hist).length
  committed_le : s.committed.length ≤ s.wal.base_pages
  base_le : s.wal.base_pages ≤ s.wal.data.num_pages
  undo_base : ∀ u ∈ undo_images cur, u.1 < s.wal.base_pages
  spilled : ∀ p, p ∈ (undo_images cur).map Prod.fst ↔ p ∈ s.wal.spilled ∧ p < s.wal.base_pages
  /-- `REC_BEGIN` is the first record, and its base is the one in memory. -/
  begun : s.wal.stole = true → last_base none cur = some s.wal.base_pages
  unbegun : s.wal.stole = false → cur = []

structure SessionInv (s : Session) (hist cur : List Rec) : Prop where
  disk : DiskInv s.wal.disk s.committed hist cur
  pages : s.wal.data.num_pages ≤ s.wal.data.file.length
  counted : s.committed.length ≤ s.wal.data.num_pages
  idle : s.in_txn = false → cur = []
  txn : s.in_txn = true → OpenTxn s hist cur

variable {s s' : Session} {hist cur : List Rec}

variable {d : Disk} {staged : List StagedPage} {page_id : Nat} {buf : Page} {w : Wal}
  {staged' : List StagedPage}

theorem StagedOk.mono {d' : Disk} (h : StagedOk d staged) (hlen : d.data.length ≤ d'.data.length) :
    StagedOk d' staged :=
  ⟨h.room, h.nodup, fun u hu => lt_of_lt_of_le (h.inside u hu) hlen⟩

/-- The log holds after-images of committed pages only. -/
def RedoBelow (s : Session) (hist : List Rec) : Prop :=
  ∀ u ∈ (scan .init hist).redone, u.1 < s.committed.length

theorem RedoBelow.congr (h : RedoBelow s hist) (hsame : s'.committed = s.committed) :
    RedoBelow s' hist := by
  unfold RedoBelow
  rw [hsame]
  exact h

/-! ### Allocation, begin, stage -/

theorem step_alloc_eq (h : s.step .alloc = some s') :
    s.wal.data.num_pages < MAX_PAGES ∧ s' = { s with wal := { s.wal with data :=
        ⟨write_at Page.zero s.wal.data.file s.wal.data.num_pages Page.zero,
          s.wal.data.num_pages + 1⟩ } } := by
  simp only [Session.step, pager_allocate_eq] at h
  split at h
  · next heq =>
    split at heq
    · next hlt => cases heq; cases h; exact ⟨hlt, rfl⟩
    · cases heq
  · cases h

theorem step_begin_eq (h : s.step .begin = some s') :
    s.in_txn = false ∧ s' = { s with wal := wal_begin s.wal, in_txn := true } := by
  obtain ⟨hin, heq⟩ := ite_none_left_eq_some.mp h
  exact ⟨eq_false_of_ne_true hin, (some.inj heq).symm⟩

theorem step_commit_eq (h : s.step .commit = some s') :
    s.in_txn = true ∧ (wal_commit s.wal).2 = 0 ∧
      s' = ⟨(wal_commit s.wal).1, false, (wal_commit s.wal).1.data.pages⟩ := by
  obtain ⟨⟨hin, hrc⟩, heq⟩ := ite_none_right_eq_some.mp h
  exact ⟨hin, hrc, (some.inj heq).symm⟩

theorem step_undo_eq (h : s.step .undo = some s') :
    s.in_txn = true ∧ s' = { s with wal := (wal_undo s.wal).1, in_txn := false } := by
  obtain ⟨hin, heq⟩ := ite_none_right_eq_some.mp h
  exact ⟨hin, (some.inj heq).symm⟩

theorem SessionInv.alloc (hinv : SessionInv s hist cur) (h : s.step .alloc = some s') :
    SessionInv s' hist cur ∧ s'.committed = s.committed ∧
      Stops s.wal.disk (call_io s.wal .alloc) (Restores s.committed) := by
  obtain ⟨hlt, rfl⟩ := step_alloc_eq h
  have hdisk := hinv.disk.alloc hinv.counted hinv.pages hlt
  have happly : s.wal.disk.apply (.data_write s.wal.data.num_pages Page.zero) =
      ⟨write_at Page.zero s.wal.data.file s.wal.data.num_pages Page.zero, s.wal.log⟩ := by
    simp [Disk.apply, hlt, Wal.disk]
  refine ⟨⟨?_, ?_, Nat.le_succ_of_le hinv.counted, hinv.idle, fun hin => ?_⟩, rfl, ?_⟩
  · rw [happly] at hdisk
    exact hdisk
  · simp only [length_write_at]
    omega
  · have ht := hinv.txn hin
    have hgrow : s.wal.data.file.length ≤
        (write_at Page.zero s.wal.data.file s.wal.data.num_pages Page.zero).length := by
      rw [length_write_at]; omega
    exact ⟨ht.staged.mono hgrow, fun u hu => Nat.lt_succ_of_lt (ht.staged_lt u hu), ht.start,
      ht.committed_le, Nat.le_succ_of_le ht.base_le, ht.undo_base, ht.spilled, ht.begun, ht.unbegun⟩
  · exact Stops.cons hinv.disk.restores (by simp) (Stops.nil hdisk.restores)

theorem SessionInv.begin (hinv : SessionInv s hist cur) (h : s.step .begin = some s') :
    SessionInv s' hist cur ∧ s'.committed = s.committed := by
  obtain ⟨hidle, rfl⟩ := step_begin_eq h
  obtain rfl : cur = [] := hinv.idle hidle
  refine ⟨⟨hinv.disk, hinv.pages, hinv.counted, by simp, fun _ => ?_⟩, rfl⟩
  have hlen : s.wal.log = encode_all hist := by simpa [Wal.disk] using hinv.disk.log
  refine ⟨⟨by simp [wal_begin], by simp [wal_begin], by simp [wal_begin]⟩, by simp [wal_begin], ?_,
    ?_, ?_, ?_, ?_, ?_, ?_⟩
  · simp [wal_begin, hlen]
  · exact hinv.counted
  · simp [wal_begin]
  · simp [undo_images]
  · simp [wal_begin, undo_images]
  · simp [wal_begin]
  · simp

/-- Staging keeps one image per page. -/
theorem stage_replace_some
    (h : stage_replace page_id buf staged = some staged') :
    staged'.map Prod.fst = staged.map Prod.fst := by
  induction staged generalizing staged' with
  | nil => simp [stage_replace] at h
  | cons u staged ih =>
    simp only [stage_replace] at h
    split at h
    · next heq => cases h; simp [heq]
    · obtain ⟨staged'', hs, rfl⟩ := map_eq_some_iff.mp h
      simp [ih hs]

theorem stage_replace_none (h : stage_replace page_id buf staged = none) :
    page_id ∉ staged.map Prod.fst := by
  induction staged with
  | nil => simp
  | cons u staged ih =>
    simp only [stage_replace] at h
    split at h
    · cases h
    · next hne =>
      have := ih (map_eq_none_iff.mp h)
      simp only [map_cons, mem_cons, not_or]
      exact ⟨fun heq => hne heq.symm, this⟩

/-- A stage that succeeds replaces an image or adds one. -/
theorem wal_stage_staged (h : (wal_stage w page_id buf).2 = 0) :
    ∃ staged, (wal_stage w page_id buf).1 = { w with staged := staged } ∧
      (staged.map Prod.fst = w.staged.map Prod.fst ∨
        staged = w.staged ++ [(page_id, buf)] ∧ page_id ∉ w.staged.map Prod.fst ∧
          w.staged.length < WAL_MAX_STAGED) := by
  unfold wal_stage at h ⊢
  cases hrep : stage_replace page_id buf w.staged with
  | some staged => exact ⟨staged, rfl, .inl (stage_replace_some hrep)⟩
  | none =>
    simp only [hrep] at h ⊢
    split at h
    · cases h
    next hroom =>
    rw [if_neg hroom]
    exact ⟨_, rfl, .inr ⟨rfl, stage_replace_none hrep, by omega⟩⟩

/-- What holds of the ids staged before and of the new one holds of all. -/
theorem staged_ids {n : Nat}
    (h : staged'.map Prod.fst = staged.map Prod.fst ∨ staged' = staged ++ [(page_id, buf)])
    (hlt : ∀ u ∈ staged, u.1 < n) (hp : page_id < n) : ∀ u ∈ staged', u.1 < n := by
  intro u hu
  rcases h with hmap | rfl
  · have hmem : u.1 ∈ staged.map Prod.fst := hmap ▸ mem_map_of_mem hu
    obtain ⟨v, hv, heq⟩ := mem_map.mp hmem
    exact heq ▸ hlt v hv
  · rcases mem_append.mp hu with hu | hu
    · exact hlt u hu
    · rw [mem_singleton.mp hu]
      exact hp

theorem staged_room
    (h : staged'.map Prod.fst = staged.map Prod.fst ∨ staged' = staged ++ [(page_id, buf)] ∧
      page_id ∉ staged.map Prod.fst ∧ staged.length < WAL_MAX_STAGED)
    (hroom : staged.length ≤ WAL_MAX_STAGED) : staged'.length ≤ WAL_MAX_STAGED := by
  rcases h with hmap | ⟨rfl, -, hfree⟩
  · rw [← length_map Prod.fst, hmap, length_map]
    exact hroom
  · rw [length_append]
    exact hfree

theorem wal_stage_ok (hok : StagedOk w.disk w.staged) (hlt : ∀ u ∈ w.staged, u.1 < w.data.num_pages)
    (hpages : w.data.num_pages ≤ w.data.file.length) (hp : page_id < w.data.num_pages)
    (h : (wal_stage w page_id buf).2 = 0) :
    ∃ staged, (wal_stage w page_id buf).1 = { w with staged := staged } ∧
      StagedOk w.disk staged ∧ ∀ u ∈ staged, u.1 < w.data.num_pages := by
  obtain ⟨staged, heq, hcase⟩ := wal_stage_staged h
  have hids := staged_ids (hcase.imp_right And.left) hlt hp
  refine ⟨staged, heq, ⟨staged_room hcase hok.room, ?_, fun u hu =>
    lt_of_lt_of_le (hids u hu) hpages⟩, hids⟩
  · rcases hcase with hmap | ⟨rfl, hnew, -⟩
    · rw [hmap]
      exact hok.nodup
    · rw [map_append, nodup_append]
      refine ⟨hok.nodup, by simp, ?_⟩
      intro q hq q' hq' heq
      simp only [map_cons, map_nil, mem_singleton] at hq'
      exact hnew (hq' ▸ heq ▸ hq)

theorem step_take_eq {c : Prop} [Decidable c] {r : Wal × Int}
    (h : (if c then s.take r else none) = some s') : c ∧ r.2 = 0 ∧ s' = { s with wal := r.1 } := by
  split at h
  · next hc =>
    unfold Session.take at h
    split at h
    · next hr => cases h; exact ⟨hc, hr, rfl⟩
    · cases h
  · cases h

variable (hinv : SessionInv s hist cur) {ops : List IoOp}

include hinv

theorem SessionInv.stage (h : s.step (.stage page_id buf) = some s') :
    SessionInv s' hist cur ∧ s'.committed = s.committed := by
  obtain ⟨⟨hin, hp⟩, hrc, rfl⟩ := step_take_eq h
  have ht := hinv.txn hin
  obtain ⟨staged, heq, hok, hids⟩ := wal_stage_ok ht.staged ht.staged_lt hinv.pages hp hrc
  rw [heq]
  exact ⟨⟨hinv.disk, hinv.pages, hinv.counted, fun hidle => by simp [hin] at hidle, fun _ =>
    ⟨hok, hids, ht.start, ht.committed_le, ht.base_le, ht.undo_base, ht.spilled, ht.begun,
      ht.unbegun⟩⟩, rfl⟩

/-! ### Steal -/

/-- The records of a steal, and the invariant after they are logged. -/
theorem SessionInv.steal_recs (hin : s.in_txn = true)
    (hp : page_id < s.wal.data.num_pages) (lsn : Nat) :
    ∃ undo, steal_undo s.wal lsn page_id = some undo ∧
      DiskInv (s.wal.disk.run ((steal_begin s.wal).map log_rec)) s.committed hist
        (cur ++ steal_begin s.wal) ∧
      DiskInv (s.wal.disk.run ((steal_begin s.wal ++ undo).map log_rec)) s.committed hist
        (cur ++ steal_begin s.wal ++ undo) ∧
      (undo = [] ∨ ∃ x, undo = [.undo lsn page_id x] ∧ page_id < s.wal.base_pages ∧
        page_id ∉ s.wal.spilled) ∧
      (undo = [] → page_id ∈ s.wal.spilled ∨ s.wal.base_pages ≤ page_id) := by
  have ht := hinv.txn hin
  have hlt : page_id < s.wal.data.file.length := lt_of_lt_of_le hp hinv.pages
  have hbegin : DiskInv (s.wal.disk.run ((steal_begin s.wal).map log_rec)) s.committed hist
      (cur ++ steal_begin s.wal) := by
    unfold steal_begin
    split
    · simpa using hinv.disk
    · have hmax : s.wal.base_pages ≤ MAX_PAGES :=
        le_trans ht.base_le (le_trans hinv.pages hinv.disk.bound)
      simpa using hinv.disk.log_begin s.wal.next_lsn ht.committed_le hmax
  have hui : undo_images (cur ++ steal_begin s.wal) = undo_images cur := by
    unfold steal_begin
    split <;> simp [undo_images_append, undo_images]
  unfold steal_undo
  by_cases hsp : page_id ∈ s.wal.spilled
  · exact ⟨[], by simp [hsp], hbegin, by simpa using hbegin, .inl rfl, fun _ => .inl hsp⟩
  by_cases hbase : page_id < s.wal.base_pages
  · -- the first steal of an old page: its content in the file is still the committed one
    have hx : s.wal.data.file[page_id]? = some (s.wal.data.file.get ⟨page_id, hlt⟩) := by
      simp [hlt]
    have hnot : page_id ∉ (undo_images (cur ++ steal_begin s.wal)).map Prod.fst := by
      rw [hui, ht.spilled]
      exact fun h => hsp h.1
    have hdata : (s.wal.disk.run ((steal_begin s.wal).map log_rec)).data = s.wal.data.file := by
      rw [run_log_recs]; rfl
    refine ⟨[.undo lsn page_id (s.wal.data.file.get ⟨page_id, hlt⟩)], ?_, hbegin, ?_,
      .inr ⟨_, rfl, hbase, hsp⟩, by simp⟩
    · simp [hsp, hbase, pager_read, hlt]
    · have := hbegin.log_undo lsn (by rw [hdata]; exact hx) hnot
      simpa [Disk.run_append] using this
  · exact ⟨[], by simp [hsp, hbase], hbegin, by simpa using hbegin, .inl rfl,
      fun _ => .inr (by omega)⟩

omit hinv in
/-- The images a steal protects, as the in-memory list of spilled pages has them. -/
theorem OpenTxn.spilled_steal (ht : OpenTxn s hist cur) {lsn : Nat} {undo : List Rec}
    (hundo : undo = [] ∨ ∃ x, undo = [.undo lsn page_id x] ∧ page_id < s.wal.base_pages ∧
        page_id ∉ s.wal.spilled)
    (hnone : undo = [] → page_id ∈ s.wal.spilled ∨ s.wal.base_pages ≤ page_id) (p : Nat) :
    p ∈ (undo_images (cur ++ steal_begin s.wal ++ undo)).map Prod.fst ↔
      p ∈ (if page_id ∈ s.wal.spilled then s.wal.spilled else s.wal.spilled ++ [page_id]) ∧
        p < s.wal.base_pages := by
  have hui : undo_images (cur ++ steal_begin s.wal ++ undo) =
      undo_images cur ++ undo_images undo := by
    unfold steal_begin
    split <;> simp [undo_images_append, undo_images]
  rw [hui, map_append, mem_append, ht.spilled]
  rcases hundo with rfl | ⟨x, rfl, hlt, hsp⟩
  · simp only [undo_images, map_nil, not_mem_nil, or_false]
    split
    · rfl
    · next hsp =>
      have hge := (hnone rfl).resolve_left hsp
      simp only [mem_append, mem_singleton]
      constructor
      · exact fun h => ⟨.inl h.1, h.2⟩
      · rintro ⟨h | rfl, hp⟩
        · exact ⟨h, hp⟩
        · omega
  · simp only [undo_images, map_cons, map_nil, mem_singleton, if_neg hsp,
      mem_append]
    constructor
    · rintro (h | rfl)
      · exact ⟨.inl h.1, h.2⟩
      · exact ⟨.inr rfl, hlt⟩
    · rintro ⟨h | rfl, hp⟩
      · exact .inl ⟨h, hp⟩
      · exact .inr rfl

theorem SessionInv.steal (h : s.step (.steal page_id buf) = some s') :
    (∃ cur', SessionInv s' hist cur') ∧ s'.committed = s.committed ∧
      Stops s.wal.disk (call_io s.wal (.steal page_id buf)) (Restores s.committed) := by
  obtain ⟨⟨hin, hp⟩, -, rfl⟩ := step_take_eq h
  have ht := hinv.txn hin
  set lsn := s.wal.next_lsn + (steal_begin s.wal).length with hlsn
  obtain ⟨undo, hsome, hd1, hd2, hundo, hnone⟩ := hinv.steal_recs hin hp lsn
  set cur' := cur ++ steal_begin s.wal ++ undo
  set d2 := s.wal.disk.run ((steal_begin s.wal ++ undo).map log_rec) with hd2eq
  have hdata : d2.data = s.wal.data.file := by rw [hd2eq, run_log_recs]; rfl
  have hlt : page_id < d2.data.length := by rw [hdata]; exact lt_of_lt_of_le hp hinv.pages
  have hspilled := ht.spilled_steal hundo hnone
  -- the stolen page has its before-image in the log, or is newer than the committed content
  have hcover : page_id ∈ (undo_images cur').map Prod.fst ∨ s.committed.length ≤ page_id := by
    rcases lt_or_ge page_id s.wal.base_pages with hb | hb
    · refine .inl ((hspilled page_id).mpr ⟨?_, hb⟩)
      split
      · assumption
      · simp
    · exact .inr (le_trans ht.committed_le hb)
  have hd3 := hd2.write_stolen buf hlt hcover
  have hio : (s.wal.io (wal_steal_io (steal_begin s.wal ++ undo) page_id buf)).disk =
      d2.apply (.data_write page_id buf) := by
    rw [Wal.disk_io, wal_steal_io, Disk.run_append]
    rfl
  have hfile : (s.wal.io (wal_steal_io (steal_begin s.wal ++ undo) page_id buf)).data.file.length =
      s.wal.data.file.length := by
    have hmax : page_id < MAX_PAGES := lt_of_lt_of_le hlt hd2.bound
    have : (d2.apply (.data_write page_id buf)).data.length = s.wal.data.file.length := by
      simp only [Disk.apply, if_pos hmax, length_write_at, hdata]
      rw [hdata] at hlt
      omega
    rw [← hio] at this
    exact this
  refine ⟨⟨cur', ?_⟩, rfl, ?_⟩
  · unfold wal_steal
    simp only [← hlsn, hsome]
    refine ⟨?_, ?_, hinv.counted, fun hidle => by simp [hin] at hidle, fun _ => ?_⟩
    · have : DiskInv (s.wal.io (wal_steal_io (steal_begin s.wal ++ undo) page_id buf)).disk
        s.committed hist cur' := by rw [hio]; exact hd3
      exact this
    · exact le_trans hinv.pages (le_of_eq hfile.symm)
    · refine ⟨ht.staged.mono (le_of_eq hfile.symm), ht.staged_lt, ht.start, ht.committed_le, ht.base_le, ?_,
        hspilled, fun _ => ?_, by simp⟩
      · intro u hu
        exact ((hspilled u.1).mp (mem_map_of_mem hu)).2
      · have hub : last_base (last_base none (cur ++ steal_begin s.wal)) undo =
            last_base none (cur ++ steal_begin s.wal) := by
          rcases hundo with rfl | ⟨x, rfl, -⟩ <;> rfl
        rw [last_base_append, hub, last_base_append]
        unfold steal_begin
        split
        · next hst => exact ht.begun hst
        · rfl
  · simp only [call_io, ← hlsn, hsome, getD_some]
    rw [run_log_recs] at hd1 hd2eq
    refine stops_steal ?_ ?_ (hd2eq ▸ hd3.restores)
    · exact hundo.imp_right fun hx => ⟨_, hx.choose_spec.1, by simp⟩
    · rintro rs (rfl | rfl | rfl) t ht
      · simpa [Wal.disk] using hinv.disk.restores_torn ht
      · exact hd1.restores_torn ht
      · have := hd2.restores_torn ht
        rwa [hd2eq] at this

/-! ### Commit -/

theorem SessionInv.redo_images_eq :
    redo_images s.wal.log = (scan .init hist).redone := by
  have hlog : s.wal.log = encode_all (hist ++ cur) := hinv.disk.log
  obtain ⟨hredo, -⟩ := (Reads.exact (hist ++ cur)).recover hinv.disk.fits
  rw [hlog, hredo, scan_hist_steals hinv.disk.closed hinv.disk.steals]

/-- In a run without truncations only spilled pages can be older in the log. -/
theorem SessionInv.fresh_images (hin : s.in_txn = true)
    (hbelow : RedoBelow s hist) (hfresh : fresh_commit s .commit) :
    FreshImages s.wal.disk (scan .init hist).redone s.wal.data.num_pages s.wal.staged := by
  intro p _ hnot x hx
  have hC : p < s.committed.length := hbelow _ (mem_of_last_write hx)
  by_cases hmem : p ∈ (undo_images cur).map Prod.fst
  · have hsp := (((hinv.txn hin).spilled p).mp hmem).1
    rw [← hinv.redo_images_eq] at hx
    rcases hfresh rfl p hsp hnot with h | h
    · simp [h] at hx
    · rw [← hx, h]; rfl
  · rw [hinv.disk.keep p hC hmem, hinv.disk.images p hC x hx]

omit hinv in
/-- The pager after a successful commit. -/
theorem wal_commit_data (hmax : ∀ u ∈ w.staged, u.1 < MAX_PAGES) :
    (wal_commit w).2 = 0 ∧ (wal_commit w).1.disk = w.disk.run (wal_commit_io w) ∧
      (wal_commit w).1.data = ⟨write_all Page.zero w.data.file w.staged, w.data.num_pages⟩ := by
  have hrc : write_rc w.staged = 0 := by simpa [write_rc] using hmax
  have hfile : (w.disk.run (wal_commit_io w)).data = write_all Page.zero w.data.file w.staged := by
    rw [wal_commit_io, Disk.run_append, Disk.run_append, Disk.run_write_ops hmax, commit_log_io,
      Disk.run_append, run_log_recs, checkpoint_io]
    split <;> rfl
  refine ⟨by simp [wal_commit, hrc], by simp [wal_commit, hrc, Wal.io, Wal.disk], ?_⟩
  simpa [wal_commit, hrc, Wal.io] using hfile

theorem SessionInv.commit (h : s.step .commit = some s')
    (hbelow : RedoBelow s hist) (hfresh : fresh_commit s .commit) :
    (∃ hist', SessionInv s' hist' [] ∧ RedoBelow s' hist') ∧
      Stops s.wal.disk (call_io s.wal .commit)
        (fun d => Restores s.committed d ∨ Restores s'.committed d) := by
  obtain ⟨hin, hrc, rfl⟩ := step_commit_eq h
  have ht := hinv.txn hin
  obtain ⟨hstops, hist', hredo, hdone⟩ := hinv.disk.commit ht.staged
    (hinv.fresh_images hin hbelow hfresh) s.wal.next_lsn (s.wal.disk.run (commit_log_io s.wal)).log.length
  change DiskInv (s.wal.disk.run (wal_commit_io s.wal)) _ hist' [] at hdone
  have hmax : ∀ u ∈ s.wal.staged, u.1 < MAX_PAGES :=
    fun u hu => lt_of_lt_of_le (ht.staged.inside u hu) hinv.disk.bound
  obtain ⟨-, hdisk, hdata⟩ := wal_commit_data hmax
  have hlen : (write_all Page.zero s.wal.data.file s.wal.staged).length =
      s.wal.data.file.length := length_write_all_of_lt _ ht.staged.inside
  refine ⟨⟨hist', ⟨?_, ?_, ?_, fun _ => rfl, by simp⟩, ?_⟩, ?_⟩
  · simp only [hdata, Pager.pages]
    rw [hdisk]
    exact hdone
  · simp only [hdata, hlen]
    exact hinv.pages
  · simp only [hdata, Pager.pages, length_take]
    omega
  · intro u hu
    have hpages := hinv.pages
    simp only [hdata, Pager.pages, length_take, hlen]
    rcases hredo u hu with hu | hu
    · have := hbelow u hu
      have := hinv.counted
      omega
    · have := ht.staged_lt u hu
      omega
  · simp only [hdata, Pager.pages]
    exact Stops.mono (fun _ => Or.imp StillOpen.restores Closed.restores) hstops

/-! ### Undo -/

theorem SessionInv.undo_scan_eq (hin : s.in_txn = true)
    (hst : s.wal.stole = true) : undo_scan s.wal = (undo_images cur, some s.wal.base_pages) :=
  undo_scan_of (by simpa [Wal.disk] using hinv.disk.log) (hinv.txn hin).start
    (fun r hr => hinv.disk.fits r (mem_append_right _ hr)) hinv.disk.steals
    ((hinv.txn hin).begun hst)

theorem SessionInv.undo (h : s.step .undo = some s') :
    SessionInv s' hist [] ∧ s'.committed = s.committed ∧
      Stops s.wal.disk (call_io s.wal .undo) (Restores s.committed) := by
  obtain ⟨hin, rfl⟩ := step_undo_eq h
  have ht := hinv.txn hin
  by_cases hst : s.wal.stole = true
  · have hscan := hinv.undo_scan_eq hin hst
    have hio : wal_undo_io s.wal = write_ops (undo_images cur) ++
        truncate_ops (truncate_to (some s.wal.base_pages) s.wal.data.num_pages) ++
        [.fsync_data, .log_truncate (encode_all hist).length] := by
      simp [wal_undo_io, hst, hscan, ht.start]
    obtain ⟨hstops, hdone, hlen⟩ := hinv.disk.undo ht.committed_le hinv.pages ht.undo_base hio
    refine ⟨?_, rfl, hstops⟩
    simp only [wal_undo, hst, if_true, hscan]
    refine ⟨hdone, hlen, ?_, fun _ => rfl, by simp⟩
    cases hcut : truncate_to (some s.wal.base_pages) s.wal.data.num_pages with
    | none => exact hinv.counted
    | some m =>
      obtain ⟨rfl, -⟩ := truncate_to_some hcut
      exact ht.committed_le
  · have hcur : cur = [] := ht.unbegun (by simpa using hst)
    subst hcur
    refine ⟨?_, rfl, ?_⟩
    · simp only [wal_undo, hst]
      exact ⟨hinv.disk, hinv.pages, hinv.counted, fun _ => rfl, by simp⟩
    · simp only [call_io, wal_undo_io, hst]
      exact Stops.nil hinv.disk.restores

/-! ### Every stop of every run -/

omit hinv in
theorem Restores.recovers {C : List Page} (h : Restores C d) : Recovers d C := by
  obtain ⟨rs, hrs⟩ := h
  exact hrs.wal_open

/-- One call keeps the invariant, and a stop inside it leaves the committed
    content of before the call or, inside a commit, that of after it. -/
theorem SessionInv.step (hbelow : RedoBelow s hist) {c : Call}
    (hok : fresh_commit s c) (h : s.step c = some s') :
    (∃ hist' cur', SessionInv s' hist' cur' ∧ RedoBelow s' hist') ∧
      Stops s.wal.disk (call_io s.wal c)
        (fun d => Restores s.committed d ∨ c = .commit ∧ Restores s'.committed d) := by
  cases c with
  | alloc =>
    obtain ⟨hinv', hsame, hstops⟩ := hinv.alloc h
    exact ⟨⟨hist, cur, hinv', hbelow.congr hsame⟩, hstops.mono fun _ => Or.inl⟩
  | begin =>
    obtain ⟨hinv', hsame⟩ := hinv.begin h
    exact ⟨⟨hist, cur, hinv', hbelow.congr hsame⟩, Stops.nil (.inl hinv.disk.restores)⟩
  | steal page_id buf =>
    obtain ⟨⟨cur', hinv'⟩, hsame, hstops⟩ := hinv.steal h
    exact ⟨⟨hist, cur', hinv', hbelow.congr hsame⟩, hstops.mono fun _ => Or.inl⟩
  | stage page_id buf =>
    obtain ⟨hinv', hsame⟩ := hinv.stage h
    exact ⟨⟨hist, cur, hinv', hbelow.congr hsame⟩, Stops.nil (.inl hinv.disk.restores)⟩
  | commit =>
    obtain ⟨⟨hist', hinv', hbelow'⟩, hstops⟩ := hinv.commit h hbelow hok
    exact ⟨⟨hist', [], hinv', hbelow'⟩, hstops.mono fun _ hd => hd.imp id fun hd => ⟨rfl, hd⟩⟩
  | undo =>
    obtain ⟨hinv', hsame, hstops⟩ := hinv.undo h
    exact ⟨⟨hist, [], hinv', hbelow.congr hsame⟩, hstops.mono fun _ => Or.inl⟩

omit hinv

/-- `wal_open` leaves an empty log. -/
theorem wal_open_log (d : Disk) : (wal_open d).log = [] := by
  have hlog : (wal_open d).log = (d.run (wal_recover_io (wal_fresh d))).log := rfl
  rw [hlog, wal_recover_io, Disk.run_append]
  simp [Disk.apply, resize]

/-- Recovery writes inside the range of file offsets. -/
theorem length_run_le (d : Disk) (hd : d.data.length ≤ MAX_PAGES)
    (hops : ∀ n, .data_truncate n ∈ ops → n ≤ MAX_PAGES) : (d.run ops).data.length ≤ MAX_PAGES := by
  induction ops generalizing d with
  | nil => exact hd
  | cons op ops ih =>
    refine ih (d.apply op) ?_ fun n hn => hops n (mem_cons_of_mem _ hn)
    cases op with
    | data_write p x =>
      simp only [Disk.apply]
      split
      · simp only [length_write_at]; omega
      · exact hd
    | data_truncate n => simpa [Disk.apply] using hops n mem_cons_self
    | _ => exact hd

theorem mem_truncate_ops {base : Option Nat} {n m : Nat}
    (h : .data_truncate m ∈ truncate_ops (truncate_to base n)) :
    truncate_to base n = some m ∧ m < n := by
  cases base with
  | none => simp [truncate_to, truncate_ops] at h
  | some b =>
    cases hcut : truncate_to (some b) n with
    | none => simp [hcut, truncate_ops] at h
    | some k =>
      obtain ⟨rfl, hlt⟩ := truncate_to_some hcut
      have : m = k := by simpa [hcut, truncate_ops] using h
      exact ⟨by rw [this], by omega⟩

theorem not_mem_write_ops (us : List StagedPage) (n : Nat) : .data_truncate n ∉ write_ops us := by
  simp [write_ops]

/-- Only a truncation makes a file shorter. -/
theorem length_le_run (d : Disk) (h : ∀ n, .data_truncate n ∉ ops) :
    d.data.length ≤ (d.run ops).data.length := by
  induction ops generalizing d with
  | nil => exact le_rfl
  | cons op ops ih =>
    refine le_trans ?_ (ih (d.apply op) fun n hn => h n (mem_cons_of_mem _ hn))
    cases op with
    | data_write p x =>
      simp only [Disk.apply]
      split
      · simp only [length_write_at]; omega
      · exact le_rfl
    | data_truncate n => exact absurd mem_cons_self (h n)
    | _ => exact le_rfl

/-- The file after recovery: the page writes, and then the truncation. -/
theorem wal_open_data (d : Disk) : (wal_open d).data.file =
    ((d.run (write_ops (redo_images d.log ++ (loser_scan d.log).1))).run
      (truncate_ops (truncate_to (loser_scan d.log).2 d.data.length))).data := by
  have : (wal_open d).data.file = (d.run (wal_recover_io (wal_fresh d))).data := rfl
  rw [this, wal_recover_io, ← write_ops_append, Disk.run_append, Disk.run_append]
  rfl

/-- The page count that recovery ends with. -/
def pages_kept (d : Disk) : Nat :=
  (truncate_to (loser_scan d.log).2 d.data.length).getD d.data.length

/-- After recovery the pager counts no page that the file does not have. -/
theorem wal_open_pages (d : Disk) : (wal_open d).data.num_pages ≤ (wal_open d).data.file.length := by
  rw [wal_open_data]
  change pages_kept d ≤ _
  unfold pages_kept
  cases truncate_to (loser_scan d.log).2 d.data.length with
  | none => exact length_le_run d (not_mem_write_ops _)
  | some n => simp [truncate_ops, Disk.apply]

theorem wal_open_bound (hmax : d.data.length ≤ MAX_PAGES) :
    (wal_open d).data.file.length ≤ MAX_PAGES := by
  refine length_run_le d hmax fun n hn => ?_
  change _ ∈ wal_recover_io (wal_fresh d) at hn
  simp only [wal_recover_io, mem_append, not_mem_write_ops, false_or] at hn
  rcases hn with hn | hn
  · have := (mem_truncate_ops hn).2
    exact le_of_lt (lt_of_lt_of_le this hmax)
  · simp at hn

theorem session_open_inv (hmax : d.data.length ≤ MAX_PAGES) :
    SessionInv (session_open d) [] [] := by
  have hdisk : (wal_open d).disk = ⟨(wal_open d).data.file, []⟩ := by
    rw [Wal.disk, wal_open_log]
  refine ⟨?_, wal_open_pages d, ?_, fun _ => rfl, by simp [session_open]⟩
  · change DiskInv (wal_open d).disk _ [] []
    rw [hdisk]
    exact (DiskInv.fresh (wal_open_bound hmax)).take _
  · simp only [session_open, Pager.pages, length_take]
    omega

theorem recovers_every_stop {d : Disk} (hmax : d.data.length ≤ MAX_PAGES) {cs : List Call}
    (hrun : Steps Session.step fresh_commit (session_open d) cs s) :
    Recovers s.wal.disk s.committed ∧
      ∀ c s', s.step c = some s' → fresh_commit s c → ∀ k b,
        Recovers (s.stopped c k b) s.committed ∨
          c = .commit ∧ Recovers (s.stopped c k b) s'.committed := by
  have hinv : ∃ hist cur, SessionInv s hist cur ∧ RedoBelow s hist := by
    refine Steps.invariant (fun s => ∃ hist cur, SessionInv s hist cur ∧ RedoBelow s hist) ?_ hrun
      ⟨[], [], session_open_inv hmax, by simp [RedoBelow, Scan.init]⟩
    rintro s a s' ⟨hist, cur, hinv, hbelow⟩ hok hs
    exact (hinv.step hbelow hok hs).1
  obtain ⟨hist, cur, hinv, hbelow⟩ := hinv
  refine ⟨hinv.disk.restores.recovers, fun c s' hs hok k b => ?_⟩
  rcases (hinv.step hbelow hok hs).2 k b with h | ⟨hc, h⟩
  · exact .inl h.recovers
  · exact .inr ⟨hc, h.recovers⟩

/-- A commit below the checkpoint limit, as one update of the state. -/
theorem wal_commit_eq (hrc : ∀ u ∈ w.staged, u.1 < MAX_PAGES) {recs : List Rec}
    (hrecs : recs = page_recs w.next_lsn w.staged ++ [.commit (w.next_lsn + w.staged.length)])
    (hsmall : (w.log ++ encode_all recs).length ≤ WAL_CHECKPOINT_BYTES) :
    wal_commit w =
      ({ w with
          data := { w.data with file := write_all Page.zero w.data.file w.staged }
          log := w.log ++ encode_all recs
          staged := []
          stole := false
          spilled := []
          txn_active := false
          next_lsn := w.next_lsn + w.staged.length + 1
          flushed_lsn := w.next_lsn + w.staged.length }, 0) := by
  have hlog : w.disk.run (commit_log_io w) = ⟨w.data.file, w.log ++ encode_all recs⟩ := by
    rw [commit_log_io, Disk.run_append, run_log_recs, hrecs]
    simp [Disk.apply, log_rec, Wal.disk]
  have hrun : w.disk.run (wal_commit_io w) =
      ⟨write_all Page.zero w.data.file w.staged, w.log ++ encode_all recs⟩ := by
    rw [wal_commit_io, hlog, checkpoint_io, if_neg (not_lt.mpr hsmall), append_nil,
      Disk.run_append, hlog, Disk.run_write_ops hrc]
  have hrc' : write_rc w.staged = 0 := by simpa [write_rc] using hrc
  simp [wal_commit, hrc', Wal.io, hrun]

/-- On a new file, a transaction steals page 0 and stages it again. -/
def restage_calls : List Call := [.alloc, .begin, .steal 0 (Page.fill 1), .stage 0 (Page.fill 2)]

theorem run_restage_calls : ∃ s, run Session.step (session_open ⟨[], []⟩) restage_calls = some s ∧
    s.in_txn = true ∧ s.wal.staged = [(0, Page.fill 2)] ∧ s.wal.spilled = [0] ∧
    (wal_commit s.wal).2 = 0 ∧ (wal_commit s.wal).1.data.pages = [Page.fill 2] := by
  have hmax : 0 < MAX_PAGES := by decide
  have hopen : wal_open ⟨[], []⟩ = wal_fresh ⟨[], []⟩ := rfl
  simp [restage_calls, run, Session.step, session_open, hopen, wal_fresh, pager_open,
    pager_allocate, pager_write, wal_begin, wal_stage, stage_replace, Session.take,
    WAL_MAX_STAGED, hmax, write_at, wal_steal, steal_begin, steal_undo, pager_read, Wal.io,
    Wal.disk, wal_steal_io, Disk.apply, log_rec]
  rw [wal_commit_eq (by simp [hmax]) rfl (by
    simp [page_recs, Rec.encode, Page.size, le_bytes_length, PAGE_SIZE, WAL_CHECKPOINT_BYTES])]
  simp [write_all, write_at, Pager.pages]

theorem recovers_every_stop_restage : ∃ s,
    Steps Session.step fresh_commit (session_open ⟨[], []⟩) (restage_calls ++ [.commit]) s ∧
      s.committed = [Page.fill 2] ∧ Recovers s.wal.disk s.committed := by
  obtain ⟨s, hrun, hin, hstaged, hspilled, hrc, hfile⟩ := run_restage_calls
  have hok : ∀ s, ∀ c ∈ restage_calls, fresh_commit s c := by simp [restage_calls, fresh_commit]
  have hfresh : fresh_commit s .commit := by simp [fresh_commit, hstaged, hspilled]
  have hsteps := (Steps.of_run hok hrun).snoc .commit hfresh (by simp [Session.step, hin, hrc]; rfl)
  exact ⟨_, hsteps, hfile, (recovers_every_stop (d := ⟨[], []⟩) (by decide) hsteps).1⟩

/-- Page 0 is staged and committed, then stolen and committed again. -/
def stale_calls : List Call :=
  [.alloc, .begin, .stage 0 (Page.fill 1), .commit, .begin, .steal 0 (Page.fill 2), .commit]

/-- The log that run leaves. -/
def stale_recs : List Rec :=
  [.page 1 0 (Page.fill 1), .commit 2, .begin 3 1, .undo 4 0 (Page.fill 1), .commit 5]

theorem run_stale_calls : ∃ s, run Session.step (session_open ⟨[], []⟩) stale_calls = some s ∧
    s.wal.disk = ⟨[Page.fill 2], encode_all stale_recs⟩ ∧ s.committed = [Page.fill 2] := by
  have hmax : 0 < MAX_PAGES := by decide
  have hopen : wal_open ⟨[], []⟩ = wal_fresh ⟨[], []⟩ := rfl
  simp [stale_calls, run, Session.step, session_open, hopen, wal_fresh, pager_open, Pager.pages,
    pager_allocate, pager_write, wal_begin, wal_stage, stage_replace, Session.take,
    WAL_MAX_STAGED, hmax, write_at]
  rw [wal_commit_eq (by simp [hmax]) rfl (by
    simp [page_recs, Rec.encode, Page.size, le_bytes_length, PAGE_SIZE, WAL_CHECKPOINT_BYTES])]
  simp [wal_steal, steal_begin, steal_undo, pager_read, write_all, write_at, Wal.io, Wal.disk,
    wal_steal_io, Disk.apply, log_rec, hmax]
  rw [wal_commit_eq (by simp) rfl (by
    simp [page_recs, Rec.encode, Page.size, le_bytes_length, PAGE_SIZE, WAL_CHECKPOINT_BYTES])]
  simp [stale_recs, page_recs, write_all]

/-- Redo puts the after-image of the first transaction over the page the
    second one stole and committed. -/
theorem recovery_reverts_stolen_page :
    ¬ ∀ (d : Disk) (cs : List Call) (s : Session), d.data.length ≤ MAX_PAGES →
      Steps Session.step (fun _ _ => True) (session_open d) cs s →
      Recovers s.wal.disk s.committed := by
  intro hall
  obtain ⟨s, hrun, hdisk, hcommitted⟩ := run_stale_calls
  have hrec := hall ⟨[], []⟩ stale_calls s (by decide) (Steps.of_run (by simp) hrun)
  have hfile : (wal_open s.wal.disk).data.file = [Page.fill 1] := by
    have hfits : ∀ r ∈ stale_recs, r.fits := by simp [stale_recs, Rec.fits, MAX_PAGES]
    rw [hdisk, wal_open_file (Reads.exact stale_recs) hfits
      (by simp [stale_recs, Scan.init, Scan.next, WAL_MAX_STAGED, MAX_PAGES])
      (by simp [stale_recs, Scan.init, Scan.next, undo_images])]
    simp [stale_recs, Scan.init, Scan.next, WAL_MAX_STAGED, undo_images, last_base, truncate_to,
      write_all, write_at]
  have h0 := hrec 0 (by simp [hcommitted])
  rw [hfile, hcommitted] at h0
  have h12 : Page.fill 1 = Page.fill 2 := by simpa using h0
  exact absurd (Page.fill_injective h12) (by decide)

/-! ### The page count after recovery -/

/-- Page writes leave the length of a file alone if all of them are inside it. -/
theorem length_run_write_ops (d : Disk) (us : List StagedPage) :
    (d.run (write_ops us)).data.length = d.data.length ↔
      ∀ u ∈ us, u.1 < MAX_PAGES → u.1 < d.data.length := by
  induction us generalizing d with
  | nil => simp
  | cons u us ih =>
    set d' := d.apply (.data_write u.1 u.2) with hd'
    have hrun : d.run (write_ops (u :: us)) = d'.run (write_ops us) := rfl
    have hlen : d'.data.length = if u.1 < MAX_PAGES then max d.data.length (u.1 + 1)
        else d.data.length := by
      rw [hd', Disk.apply]
      split
      · exact length_write_at _ _ _ _
      · rfl
    rw [hrun, forall_mem_cons]
    by_cases hu : u.1 < MAX_PAGES → u.1 < d.data.length
    · have hsame : d'.data.length = d.data.length := by
        rw [hlen]
        split
        · next hmax => exact max_eq_left (hu hmax)
        · rfl
      rw [← hsame, ih, hsame]
      exact (and_iff_right hu).symm
    · -- the first write makes the file longer, and the others do not make it shorter
      refine iff_of_false (fun heq => ?_) fun h => hu h.1
      have hle := length_le_run d' (not_mem_write_ops us)
      push Not at hu
      rw [hlen, if_pos hu.1] at hle
      omega

/-- After `wal_open` the pager knows every page of the file: also those that
    redo restored, so that scans reach them and their ids are not given out. -/
structure PagesKnown (d : Disk) : Prop where
  count : (wal_open d).data.num_pages = (wal_open d).data.file.length
  redone : ∀ u ∈ redo_images d.log, u.1 < MAX_PAGES → u.1 < (wal_open d).data.num_pages
  fresh : ∀ u ∈ redo_images d.log, (pager_allocate (wal_open d).data).2 ≠ some u.1

theorem wal_open_count (d : Disk) : (wal_open d).data.num_pages = pages_kept d := rfl

theorem truncate_to_eq_none {base : Option Nat} {n : Nat} :
    truncate_to base n = none ↔ ∀ b ∈ base, n ≤ b := by
  cases base <;> simp [truncate_to]

theorem lt_pages_kept {d : Disk} {p : Nat} :
    p < pages_kept d ↔ p < d.data.length ∧ ∀ b ∈ (loser_scan d.log).2, p < b := by
  unfold pages_kept
  cases (loser_scan d.log).2 with
  | none => simp [truncate_to]
  | some b =>
    simp only [truncate_to, mem_some_iff, forall_eq']
    split <;> simp only [getD_some, getD_none] <;> omega

/-- The count is right exactly if the file has every page that is redone, and the
    loser's base does not cut it off; and if the file is not cut, it also has the
    pages of the before-images. -/
theorem pages_known_iff (d : Disk) : PagesKnown d ↔
    (∀ u ∈ redo_images d.log, u.1 < MAX_PAGES →
      u.1 < d.data.length ∧ ∀ b ∈ (loser_scan d.log).2, u.1 < b) ∧
    ((∀ b ∈ (loser_scan d.log).2, d.data.length ≤ b) →
      ∀ u ∈ (loser_scan d.log).1, u.1 < MAX_PAGES → u.1 < d.data.length) := by
  have hcount := wal_open_count d
  simp only [← lt_pages_kept, ← truncate_to_eq_none]
  constructor
  · intro h
    refine ⟨h.redone, fun hcut => ?_⟩
    have hlen := h.count
    rw [wal_open_data, hcount, pages_kept, hcut] at hlen
    exact fun u hu => (length_run_write_ops d _).mp hlen.symm u (mem_append_right _ hu)
  · rintro ⟨hredo, hundo⟩
    refine ⟨?_, hredo, fun u hu heq => ?_⟩
    · rw [wal_open_data, hcount]
      unfold pages_kept at hredo ⊢
      cases hcut : truncate_to (loser_scan d.log).2 d.data.length with
      | none =>
        rw [hcut] at hredo
        exact ((length_run_write_ops d _).mpr (forall_mem_append.mpr ⟨hredo, hundo hcut⟩)).symm
      | some n => simp [truncate_ops, Disk.apply]
    · rw [pager_allocate_eq] at heq
      split at heq
      · next hmax =>
        have hid : (wal_open d).data.num_pages = u.1 := some.inj heq
        exact absurd (hredo u hu (hid ▸ hmax)) (by rw [← hcount, hid]; exact lt_irrefl _)
      · cases heq

/-- The file has lost the page that the log holds: redo writes it back behind
    the page count. -/
theorem redone_page_not_counted :
    ¬ ∀ (d : Disk) (cs : List Call) (s : Session) (n : Nat), d.data.length ≤ MAX_PAGES →
      Steps Session.step (fun _ _ => True) (session_open d) cs s →
      PagesKnown ⟨s.wal.data.file.take n, s.wal.log⟩ := by
  intro hall
  obtain ⟨s, hrun, hdisk, -⟩ := run_stale_calls
  have hlog : s.wal.log = encode_all stale_recs := congrArg Disk.log hdisk
  have hknown := hall ⟨[], []⟩ stale_calls s 0 (by decide) (Steps.of_run (by simp) hrun)
  rw [hlog, take_zero] at hknown
  have hfits : ∀ r ∈ stale_recs, r.fits := by simp [stale_recs, Rec.fits, MAX_PAGES]
  obtain ⟨hredo, hloser⟩ := (Reads.exact stale_recs).recover hfits
  have hbelow := hknown.redone
  simp only [wal_open_count, pages_kept] at hbelow
  rw [hredo, hloser] at hbelow
  simp [stale_recs, Scan.init, Scan.next, WAL_MAX_STAGED, last_base, truncate_to,
    MAX_PAGES] at hbelow

end MiniDb
