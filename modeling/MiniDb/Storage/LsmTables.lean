import Mathlib.Data.Prod.Lex
import MiniDb.Storage.Lsm

/-! # Memtable and table files as sorted runs

  `table seq es` is the table of the run `es`: what was written is opened as
  it, and a file cut short is refused.  A memtable and a table are searched as
  runs that ascend in `group`, the key in unique mode and the pair in multi
  mode.  `Stored dir runs` says that a directory holds the tables of the runs
  and no other file that can be opened. -/

namespace MiniDb.Lsm

open Framework List

/-! ### Table files as runs -/

/-- The table that holds the run `es`. -/
def table (seq : Nat) (es : List Entry) : SSTable :=
  ⟨seq, sst_words es, es.length, (es.head?.map Entry.key).getD 0, (es.getLast?.map Entry.key).getD 0⟩

theorem flatMap_rec_words_drop (es : List Entry) (i : Nat) :
    (es.flatMap rec_words).drop (3 * i) = (es.drop i).flatMap rec_words := by
  induction i generalizing es with
  | zero => rfl
  | succ i ih =>
    cases es with
    | nil => simp
    | cons e es =>
      have : 3 * (i + 1) = 3 * i + 1 + 1 + 1 := by omega
      rw [this]
      simpa [rec_words] using ih es

@[simp] theorem flatMap_rec_words_length (es : List Entry) :
    (es.flatMap rec_words).length = 3 * es.length := by
  induction es with
  | nil => rfl
  | cons e es ih => simp [rec_words, ih]; omega

variable {es : List Entry} {i : Nat} {a b : Entry} {l : LSM} {multi : Bool} (seq : Nat) {dir : Dir}
  (lo hi : Nat)

theorem rec_at_words (h : i < es.length) :
    rec_at (sst_words es) i = some (es[i].key, es[i].val, if es[i].tomb then 1 else 0) := by
  have hdrop : (sst_words es).drop (2 + 3 * i) = (es.drop i).flatMap rec_words := by
    have : 2 + 3 * i = 3 * i + 1 + 1 := by omega
    rw [this, sst_words, drop_succ_cons, drop_succ_cons, flatMap_rec_words_drop]
  rw [drop_eq_getElem_cons h, flatMap_cons] at hdrop
  rw [rec_at, hdrop]
  rfl

theorem rec_at_short {fp : List Int} (h : fp.length < 2 + 3 * i + 3) : rec_at fp i = none := by
  have hlen : (fp.drop (2 + 3 * i)).length < 3 := by simp; omega
  rw [rec_at]
  split
  case h_1 k v t rest heq =>
    rw [heq] at hlen
    simp at hlen
    omega
  case h_2 => rfl

theorem sst_open_cons {n : Nat} (hn : 0 < n) (rest : List Int) :
    sst_open seq (SST_MAGIC :: (n : Int) :: rest) =
      (rec_at (SST_MAGIC :: (n : Int) :: rest) 0).bind fun first =>
        (rec_at (SST_MAGIC :: (n : Int) :: rest) (n - 1)).map fun last =>
          ⟨seq, SST_MAGIC :: (n : Int) :: rest, n, first.1, last.1⟩ := by
  simp only [sst_open, ne_eq, not_true_eq_false, if_false, Int.toNat_natCast, if_pos hn]
  cases rec_at (SST_MAGIC :: (n : Int) :: rest) 0 <;>
    cases rec_at (SST_MAGIC :: (n : Int) :: rest) (n - 1) <;> rfl

/-- A file that was written whole is opened as the table of its run. -/
theorem sst_open_words (es : List Entry) :
    sst_open seq (sst_words es) = some (table seq es) := by
  rcases es.length.eq_zero_or_pos with h0 | h0
  · rw [length_eq_zero_iff.1 h0]
    rfl
  · have hfirst := rec_at_words h0
    have hlast := rec_at_words (Nat.sub_lt h0 Nat.one_pos)
    rw [sst_words] at hfirst hlast
    rw [sst_words, sst_open_cons seq h0, hfirst, hlast]
    have hhead : es.head? = some es[0] := by
      rw [head?_eq_getElem?, getElem?_eq_getElem h0]
    have htail : es.getLast? = some (es.get ⟨es.length - 1, Nat.sub_lt h0 Nat.one_pos⟩) := by
      rw [getLast?_eq_getElem?]
      exact getElem?_eq_getElem _
    simp [table, sst_words, hhead, htail]

/-- A file that was cut before its end is refused. -/
theorem sst_open_torn (es : List Entry) {n : Nat} (h : n < (sst_words es).length) :
    sst_open seq ((sst_words es).take n) = none := by
  simp only [sst_words, length_cons, flatMap_rec_words_length] at h
  rcases n with _ | _ | n
  · rfl
  · rfl
  · -- the header is there, the last record is not
    have hpos : 0 < es.length := by omega
    have hlast := @rec_at_short (es.length - 1) ((sst_words es).take (n + 1 + 1))
      (by simp [sst_words]; omega)
    simp only [sst_words, take_succ_cons] at hlast ⊢
    rw [sst_open_cons seq hpos, hlast]
    cases rec_at (SST_MAGIC :: (es.length : Int) :: (es.flatMap rec_words).take n) 0 <;> rfl

theorem sst_read_rec_table {seq : Nat} (h : i < es.length) :
    sst_read_rec (table seq es) i = es[i] := by
  rw [sst_read_rec, show (table seq es).fp = sst_words es from rfl, rec_at_words h]
  rcases es[i] with ⟨k, v, t⟩
  cases t <;> simp

theorem sst_entries_table (es : List Entry) :
    sst_entries (table seq es) = es.map fun e => (e, (seq : WithTop Nat)) := by
  apply ext_getElem
  · simp [sst_entries, table]
  · intro i h₁ h₂
    have hi : i < es.length := by simpa using h₂
    simp [sst_entries, sst_read_rec_table hi]
    rfl

/-! ### Groups -/

/-- What makes two entries versions of the same thing. -/
def group (multi : Bool) (e : Entry) : Int ×ₗ Int := toLex (e.key, if multi then e.val else 0)

theorem group_lt :
    group multi a < group multi b ↔
      a.key < b.key ∨ a.key = b.key ∧ multi = true ∧ a.val < b.val := by
  cases multi <;> simp [group, Prod.Lex.toLex_lt_toLex]

theorem group_eq :
    group multi a = group multi b ↔ a.key = b.key ∧ (multi = true → a.val = b.val) := by
  cases multi <;> simp [group]

theorem group_le_key (h : group multi a ≤ group multi b) : a.key ≤ b.key := by
  rcases h.lt_or_eq with h | h
  · exact (group_lt.1 h).elim le_of_lt fun h => h.1.le
  · exact (group_eq.1 h).1.le

theorem same_group_iff {a b : MEntry} :
    same_group multi a b = true ↔ group multi a.1 = group multi b.1 := by
  rw [group_eq]
  cases multi <;> simp [same_group]

/-- The comparators sort by group, newest first. -/
theorem sort_merge_eq (multi : Bool) (arr : List MEntry) :
    sort_merge multi arr = arr.insertionSort (Ranked (group multi)) := by
  have hcmp : (fun a b => (if multi then mentry_cmp_multi else mentry_cmp) a b ≠ .gt) =
      (Ranked (group multi) : MEntry → MEntry → Prop) := by
    funext a b
    apply propext
    rw [Ranked, group_lt, group_eq]
    cases multi with
    | false =>
      simp only [Bool.false_eq_true, if_false, mentry_cmp]
      split_ifs <;> simp <;> first | omega | grind
    | true =>
      simp only [if_true, mentry_cmp_multi]
      split_ifs <;> simp <;> first | omega | grind
  rw [sort_merge, qsort]
  congr!

/-! ### Searching -/

theorem mem_mid_mem (h : lo < hi) : lo ≤ mem_mid lo hi ∧ mem_mid lo hi < hi := by
  unfold mem_mid
  omega

theorem sst_mid_mem (h : lo < hi) : lo ≤ sst_mid lo hi ∧ sst_mid lo hi < hi := by
  unfold sst_mid
  omega

/-- The run after `e` was written at the place `r`: `f` rewrites an older
    version that stands there. -/
def upsert_at (es : List Entry) (r : Nat × Bool) (f : Entry → Entry) (e : Entry) : List Entry :=
  if r.2 then es.modify r.1 f else es.take r.1 ++ e :: es.drop r.1

theorem upsert_at_spec {e : Entry} {f : Entry → Entry} {r : Nat × Bool}
    (hasc : Asc (group multi) es) (hr : CutsAt (group multi) es (group multi e) r)
    (hf : ∀ old, group multi old = group multi e → f old = e) :
    Asc (group multi) (upsert_at es r f e) ∧
      ∀ g, run_find (group multi) (upsert_at es r f e) g =
        if g = group multi e then some e else run_find (group multi) es g := by
  have hpre : Asc (group multi) (es.take r.1) := hasc.sublist (take_sublist _ _)
  rw [upsert_at]
  rcases h : r.2
  · refine ⟨hpre.place (hasc.sublist (drop_sublist _ _)) hr.low (hr.high h), fun g => ?_⟩
    rw [if_neg Bool.false_ne_true, run_find_place hr.low, take_append_drop]
  · obtain ⟨hlt, hkey⟩ := hr.hit h
    have hpost : Asc (group multi) (es[r.1] :: es.drop (r.1 + 1)) := by
      rw [getElem_cons_drop]
      exact hasc.sublist (drop_sublist _ _)
    have hes : es = es.take r.1 ++ es[r.1] :: es.drop (r.1 + 1) := by
      rw [getElem_cons_drop, take_append_drop]
    rw [if_pos rfl, modify_eq_take_cons_drop hlt, hf _ hkey]
    refine ⟨hpre.place (pairwise_cons.1 hpost).2 hr.low
      (hkey ▸ (pairwise_cons.1 hpost).1), fun g => ?_⟩
    rw [run_find_place hr.low]
    split
    case isTrue _ => rfl
    case isFalse hg =>
      conv_rhs => rw [hes]
      rw [run_find_place (hkey ▸ hr.low), if_neg (hkey ▸ hg)]

theorem mem_upsert_eq (l : LSM) (key val : Int) (tomb : Bool) :
    mem_upsert l key val tomb =
      { l with
        mem := upsert_at l.mem (mem_bsearch l key) (fun e => { e with val := val, tomb := tomb })
          ⟨key, val, tomb⟩ } := by
  rw [mem_upsert, upsert_at]
  rcases mem_bsearch l key with ⟨pos, _ | _⟩ <;> rfl

theorem mem_upsert_dup_eq (l : LSM) (key val : Int) (tomb : Bool) :
    mem_upsert_dup l key val tomb =
      { l with
        mem := upsert_at l.mem (mem_bsearch2 l key val) (fun e => { e with tomb := tomb })
          ⟨key, val, tomb⟩ } := by
  rw [mem_upsert_dup, upsert_at]
  rcases mem_bsearch2 l key val with ⟨pos, _ | _⟩ <;> rfl

theorem compare_group (a b : Entry) :
    compare (group multi a) (group multi b) =
      if a.key < b.key ∨ a.key = b.key ∧ multi = true ∧ a.val < b.val then .lt
      else if b.key < a.key ∨ a.key = b.key ∧ multi = true ∧ b.val < a.val then .gt else .eq := by
  split_ifs with h h'
  · exact compare_lt_iff_lt.2 (group_lt.2 h)
  · exact compare_gt_iff_gt.2 (group_lt.2 (h'.imp_right fun ⟨h, h'⟩ => ⟨h.symm, h'⟩))
  · refine compare_eq_iff_eq.2 (group_eq.2 ⟨by omega, fun hm => ?_⟩)
    subst hm
    simp only [true_and] at h h'
    omega

/-- The memtable is cut at the key, in unique mode. -/
theorem mem_bsearch_cut (hasc : Asc (group false) l.mem) (e : Entry) :
    CutsAt (group false) l.mem (group false e) (mem_bsearch l e.key) := by
  refine bisect_run hasc mem_mid_mem fun i hi => ?_
  rw [getElem?_eq_getElem hi, compare_group]
  simp

/-- The memtable is cut at the pair, in multi mode. -/
theorem mem_bsearch2_cut (hasc : Asc (group true) l.mem) (e : Entry) :
    CutsAt (group true) l.mem (group true e) (mem_bsearch2 l e.key e.val) := by
  refine bisect_run hasc mem_mid_mem fun i hi => ?_
  rw [getElem?_eq_getElem hi, compare_group]
  simp

/-- The memtable after a version was written in the tree's mode. -/
def write (l : LSM) (e : Entry) : LSM :=
  if l.multi then mem_upsert_dup l e.key e.val e.tomb else mem_upsert l e.key e.val e.tomb

theorem write_unique (h : l.multi = false) (e : Entry) :
    write l e = mem_upsert l e.key e.val e.tomb := by
  rw [write, h, if_neg Bool.false_ne_true]

theorem write_multi (h : l.multi = true) (e : Entry) :
    write l e = mem_upsert_dup l e.key e.val e.tomb := by
  rw [write, h, if_pos rfl]

theorem write_spec (hasc : Asc (group l.multi) l.mem) (e : Entry) :
    ∃ mem, write l e = { l with mem := mem } ∧ Asc (group l.multi) mem ∧
      ∀ g, run_find (group l.multi) mem g =
        if g = group l.multi e then some e else run_find (group l.multi) l.mem g := by
  rw [write]
  split
  case isTrue h =>
    refine ⟨_, mem_upsert_dup_eq l _ _ _, ?_⟩
    rw [h] at hasc ⊢
    refine upsert_at_spec hasc (mem_bsearch2_cut hasc e) fun old hold => ?_
    rw [group_eq] at hold
    simp [hold]
  case isFalse h =>
    refine ⟨_, mem_upsert_eq l _ _ _, ?_⟩
    rw [Bool.not_eq_true] at h
    rw [h] at hasc ⊢
    refine upsert_at_spec hasc (mem_bsearch_cut hasc e) fun old hold => ?_
    rw [group_eq] at hold
    simp [hold]

/-- The first and the last entry of a run bound its keys. -/
theorem table_range (hasc : Asc (group false) es) (seq : Nat) {x : Entry} (hx : x ∈ es) :
    (table seq es).min_key ≤ x.key ∧ x.key ≤ (table seq es).max_key := by
  have hle : es.Pairwise fun a b => a.key ≤ b.key := hasc.imp fun h => group_le_key h.le
  have hne : es ≠ [] := ne_nil_of_mem hx
  constructor
  · obtain ⟨y, ys, rfl⟩ := exists_cons_of_ne_nil hne
    rcases mem_cons.1 hx with rfl | hx
    · exact le_rfl
    · exact (pairwise_cons.1 hle).1 x hx
  · obtain ⟨ys, y, rfl⟩ := (eq_nil_or_concat' es).resolve_left hne
    simp only [table, getLast?_concat, Option.map_some, Option.getD_some]
    rcases mem_append.1 hx with hx | hx
    · exact (pairwise_append.1 hle).2.2 x hx y (by simp)
    · rw [mem_singleton.1 hx]

/-- One table is searched like the memtable; the range test loses nothing. -/
theorem sst_get_table (hasc : Asc (group false) es) (seq : Nat) (e : Entry) :
    sst_get (table seq es) e.key = run_find (group false) es (group false e) := by
  rw [sst_get]
  split
  case isTrue h =>
    refine (run_find_eq_none.2 fun x hx hxe => ?_).symm
    have hkey := (group_eq.1 hxe).1
    have hrange := table_range hasc seq hx
    rcases h with h | h | h
    · exact ne_nil_of_mem hx (length_eq_zero_iff.1 h)
    · omega
    · omega
  case isFalse h =>
    have hcmp : ∀ i (h : i < es.length),
        (let k := (sst_read_rec (table seq es) i).key
        if k = e.key then Ordering.eq else if k < e.key then .lt else .gt) =
          compare (group false es[i]) (group false e) := by
      intro i hi
      rw [compare_group, sst_read_rec_table hi]
      grind
    have hcut := bisect_run hasc sst_mid_mem hcmp
    rw [hcut.run_find hasc]
    have hcount : (table seq es).count = es.length := rfl
    rw [hcount]
    revert hcut
    rcases bisect _ _ es.length 0 es.length with ⟨mid, _ | _⟩ <;> intro hcut
    · rfl
    · obtain ⟨hlt, -⟩ := hcut.hit rfl
      simp [sst_read_rec_table hlt, getElem?_eq_getElem hlt]

/-! ### Directories -/

/-- The readable files of the directory are the tables of the runs. -/
structure Stored (multi : Bool) (dir : Dir) (runs : List (Nat × List Entry)) : Prop where
  asc : ∀ r ∈ runs, Asc (group multi) r.2
  order : runs.Pairwise fun a b => a.1 < b.1
  nodup : (dir.map Prod.fst).Nodup
  files : ∀ r ∈ runs, (r.1, sst_words r.2) ∈ dir
  others : ∀ f ∈ dir, (∃ r ∈ runs, f = (r.1, sst_words r.2)) ∨ sst_open f.1 f.2 = none

theorem mem_dir_write {seq : Nat} {words : List Int} {f : Nat × List Int} :
    f ∈ dir_write dir seq words ↔ f = (seq, words) ∨ f ∈ dir ∧ f.1 ≠ seq := by
  simp [dir_write]

theorem dir_write_nodup (h : (dir.map Prod.fst).Nodup) (seq : Nat)
    (words : List Int) : ((dir_write dir seq words).map Prod.fst).Nodup := by
  refine nodup_cons.2 ⟨?_, h.sublist (filter_sublist.map _)⟩
  simp

theorem dir_unlink_nodup (h : (dir.map Prod.fst).Nodup) (seq : Nat) :
    ((dir_unlink dir seq).map Prod.fst).Nodup :=
  h.sublist (filter_sublist.map _)

namespace Stored

variable {multi : Bool} {dir : Dir} {runs : List (Nat × List Entry)}

theorem empty : Stored multi [] [] := ⟨by simp, .nil, .nil, by simp, by simp⟩

/-- A whole file with a new number is the newest run. -/
theorem write (h : Stored multi dir runs) {seq : Nat} (hseq : ∀ r ∈ runs, r.1 < seq)
    {es : List Entry} (hes : Asc (group multi) es) :
    Stored multi (dir_write dir seq (sst_words es)) (runs ++ [(seq, es)]) where
  asc r hr := by
    rcases mem_append.1 hr with hr | hr
    · exact h.asc r hr
    · rw [mem_singleton.1 hr]
      exact hes
  order := by
    refine pairwise_append.2 ⟨h.order, by simp, fun a ha b hb => ?_⟩
    rw [mem_singleton.1 hb]
    exact hseq a ha
  nodup := dir_write_nodup h.nodup _ _
  files r hr := by
    rcases mem_append.1 hr with hr | hr
    · exact mem_dir_write.2 (.inr ⟨h.files r hr, (hseq r hr).ne⟩)
    · rw [mem_singleton.1 hr]
      exact mem_dir_write.2 (.inl rfl)
  others f hf := by
    rcases mem_dir_write.1 hf with rfl | ⟨hf, -⟩
    · exact .inl ⟨(seq, es), by simp, rfl⟩
    · exact (h.others f hf).imp_left fun ⟨r, hr, heq⟩ => ⟨r, by simp [hr], heq⟩

/-- A file with a new number that was not written to its end does not count. -/
theorem torn (h : Stored multi dir runs) {seq : Nat} (hseq : ∀ r ∈ runs, r.1 < seq)
    (es : List Entry) {n : Nat} (hn : n < (sst_words es).length) :
    Stored multi (dir_write dir seq ((sst_words es).take n)) runs where
  __ := h
  nodup := dir_write_nodup h.nodup _ _
  files r hr := mem_dir_write.2 (.inr ⟨h.files r hr, (hseq r hr).ne⟩)
  others f hf := by
    rcases mem_dir_write.1 hf with rfl | ⟨hf, -⟩
    · exact .inr (sst_open_torn seq es hn)
    · exact h.others f hf

theorem unlink (h : Stored multi dir runs) (seq : Nat) :
    Stored multi (dir_unlink dir seq) (runs.filter fun r => r.1 ≠ seq) where
  asc r hr := h.asc r (mem_filter.1 hr).1
  order := h.order.filter _
  nodup := dir_unlink_nodup h.nodup seq
  files r hr := by
    obtain ⟨hr, hne⟩ := mem_filter.1 hr
    exact mem_filter.2 ⟨h.files r hr, hne⟩
  others f hf := by
    obtain ⟨hf, hne⟩ := mem_filter.1 hf
    refine (h.others f hf).imp_left ?_
    rintro ⟨r, hr, rfl⟩
    exact ⟨r, mem_filter.2 ⟨hr, hne⟩, rfl⟩

/-- Unlinking the oldest tables leaves the newer ones. -/
theorem unlink_all {old new : List (Nat × List Entry)} (h : Stored multi dir (old ++ new)) :
    Stored multi (unlink_all dir (old.map fun r => table r.1 r.2)) new := by
  induction old generalizing dir with
  | nil => exact h
  | cons r old ih =>
    refine ih ?_
    have hlt := (pairwise_cons.1 h.order).1
    have hfilter : (r :: old ++ new).filter (fun x => x.1 ≠ r.1) = old ++ new := by
      rw [cons_append, filter_cons_of_neg (by simp)]
      exact filter_eq_self.2 fun x hx => by simpa using (hlt x hx).ne'
    exact hfilter ▸ h.unlink r.1

end Stored

end MiniDb.Lsm
