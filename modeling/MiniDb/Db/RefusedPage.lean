import MiniDb.Db.BTreePages
import MiniDb.Storage.CountedPages
import MiniDb.Storage.HeapFile

/-! # When the pool has no frame for a new page

  `bufpool_new_page` extends the file before it looks for a frame.  If there is
  none it returns NULL, and the zero page stays behind: the file counts it, and
  to the heap it is a page without a header.  The splits of the B+Tree do not
  test the pointer at all. -/

namespace MiniDb.HeapFile

open Framework List SlotPage Option

/-- The file and its pages are as before. -/
structure NoTrace (f f' : PagedFile) : Prop extends SameView f f' where
  length : f'.wal.data.file.length = f.wal.data.file.length

variable {f : PagedFile}

/-- A victim that cannot be written leaves the file alone. -/
theorem evict_failed {v : Frame} (h : (evict f v).2 ≠ 0) :
    (evict f v).1.wal.data = f.wal.data := by
  unfold evict at h ⊢
  split at h
  · next hd =>
    simp only [if_pos hd]
    split at h
    · next hs =>
      simp only [if_pos hs]
      unfold wal_steal at h ⊢
      dsimp only at h ⊢
      cases hu : steal_undo f.wal (f.wal.next_lsn + (steal_begin f.wal).length) v.page_id with
      | none => simp [Wal.io, run_log_recs, Wal.disk]
      | some undo =>
        have hmax : ¬ v.page_id < MAX_PAGES := fun hlt => by simp [hu, hlt] at h
        simp [Wal.io, wal_steal_io, Disk.run_append, run_log_recs, Wal.disk, Disk.apply, hmax]
    · next hs =>
      simp only [if_neg hs]
      have hmax : ¬ v.page_id < MAX_PAGES := fun hlt => by simp [pager_write, hlt] at h
      simp [pager_write, hmax]
  · exact absurd rfl h

theorem length_le_evict (f : PagedFile) (v : Frame) :
    f.wal.data.file.length ≤ (evict f v).1.wal.data.file.length := by
  unfold evict
  split
  · split
    · exact (wal_steal_pages f.wal v.page_id v.data).2.1
    · dsimp only [pager_write]
      split
      · rw [length_write_at]
        exact Nat.le_max_left _ _
      · exact le_rfl
  · exact le_rfl

/-- No frame: the page is in the file, zero, and in the count. -/
theorem new_page_refused (hnull : (bufpool_new_page f).2 = none)
    (hlt : f.wal.data.num_pages < MAX_PAGES) :
    (bufpool_new_page f).1.wal.data.num_pages = f.wal.data.num_pages + 1 ∧
      (bufpool_new_page f).1.view f.wal.data.num_pages = some Page.zero := by
  simp only [bufpool_new_page, pager_allocate_eq, if_pos hlt, map_eq_none_iff] at hnull ⊢
  set n := f.wal.data.num_pages
  set data : Pager := ⟨write_at Page.zero f.wal.data.file n Page.zero, n + 1⟩ with hdata
  have hlen : n < data.file.length := by
    rw [hdata, length_write_at]
    exact Nat.le_max_right _ _
  have hzero : data.file[n]? = some Page.zero := getElem?_write_at_self
  unfold bufpool_fetch at hnull ⊢
  cases hfind : find_frame f.bp n with
  | some i => simp [hfind] at hnull
  | none =>
    simp only [hfind] at hnull ⊢
    set g : PagedFile := { f with
      wal := { f.wal with data := data }
      bp := { f.bp with misses := f.bp.misses + 1 } }
    have hview : ∀ f' : PagedFile, f'.bp = g.bp → f'.wal.data = data →
        f'.wal.data.num_pages = n + 1 ∧ f'.view n = some Page.zero := by
      intro f' hbp hd
      have hf' : find_frame f'.bp n = none := by rw [hbp]; exact hfind
      exact ⟨by rw [hd], by rw [PagedFile.view, hf', hd]; exact hzero⟩
    rcases pick_frame_cases g with ⟨i, fr, -, -, heq⟩ | ⟨-, heq⟩ | ⟨i, v, -, -, -, hcase⟩
    · simp [heq, pager_read, g, hzero] at hnull
    · rw [heq]
      exact hview g rfl rfl
    · rcases hcase with ⟨hne, heq⟩ | ⟨-, heq⟩
      · rw [heq]
        exact hview _ (evict_bp g v) (evict_failed hne)
      · have hle : n < (evict g v).1.wal.data.file.length := lt_of_lt_of_le hlen (length_le_evict g v)
        simp [heq, pager_read, PagedFile.set_frame, hle] at hnull

theorem new_page_full (hmax : MAX_PAGES ≤ f.wal.data.num_pages) :
    (bufpool_new_page f).1 = f := by
  simp only [bufpool_new_page, pager_allocate_eq, if_neg (not_lt.mpr hmax)]

/-! ### The callers -/

/-- The pages of the heap are slotted pages. -/
def InOrder (h : Heap) : Prop :=
  ∀ p, h.first_page ≤ p → p < h.file.wal.data.num_pages →
    ∃ page ls fe, h.file.view p = some page ∧ Layout page ls fe

theorem not_layout_zero {ls : List (Option Placed)} {fe : Nat} : ¬ Layout Page.zero ls fe := by
  intro h
  have htop : free_end Page.zero = 0 := by decide +kernel
  have harray := h.array
  rw [← h.top, htop, slot_off_eq] at harray
  omega

/-- The heap when `heap_insert` asks for a new page, if it does. -/
def before_new (h : Heap) (rec : List UInt8) : Option Heap :=
  if h.file.wal.data.num_pages > h.first_page then
    let target := h.file.wal.data.num_pages - 1
    match bufpool_fetch h.file target with
    | (_, none) => none
    | (f, some i) => do
        let page ← page_of f i
        match ← SlotPage.slotpage_insert page rec with
        | (_, some _) => none
        | (_, none) => some { h with file := bufpool_unpin f target false }
  else some h

theorem heap_insert_of_before_new {h h₁ : Heap} {rec : List UInt8}
    (hbefore : before_new h rec = some h₁) : heap_insert h rec = heap_insert_new h₁ rec := by
  unfold before_new at hbefore
  unfold heap_insert
  split at hbefore
  · next hlt =>
    rw [if_pos hlt]
    dsimp only at hbefore ⊢
    split at hbefore
    · cases hbefore
    · obtain ⟨page, hpage, hbefore⟩ := bind_eq_some_iff.mp hbefore
      obtain ⟨r, hins, hbefore⟩ := bind_eq_some_iff.mp hbefore
      split at hbefore
      · cases hbefore
      · cases hbefore
        simp [*]
  · next hge =>
    cases hbefore
    rw [if_neg hge]

/-! ### Splits -/

namespace Tree

open Paged

/-- What `node_insert` returns: nothing more to do, or the separator and the page
    of the right half; or it stores through the NULL that `bufpool_new_page` has
    returned, and these are the pages at that moment. -/
inductive Inserted where
  | fit (pages : List BTPage)
  | split (pages : List BTPage) (sep : Int) (right : Nat)
  | null (pages : List BTPage)

/-- `Paged.node_insert`, where the pool has a frame for the new page `p` if
    `grant p`. -/
def node_insert (grant : Nat → Bool) (key val : Int) (allow_dup : Bool) :
    Nat → List BTPage → Nat → Option Inserted
  | 0, _, _ => none
  | fuel + 1, pages, pid =>
    match pages[pid]? with
    | some (.leaf es next) =>
      let before := es.takeWhile (·.1 < key)
      let after := es.dropWhile (·.1 < key)
      if !allow_dup && after.head?.map Prod.fst == some key then
        some (.fit (pages.set pid (.leaf (before ++ (key, val) :: after.tail) next)))
      else
        let es := before ++ (key, val) :: after
        if es.length ≤ BT_MAX_KEYS then some (.fit (pages.set pid (.leaf es next)))
        else
          let left := es.length / 2
          let rpid := pages.length
          -- the leaf is overfull when the page is asked for
          if grant rpid then
            some (.split (pages.set pid (.leaf (es.take left) rpid) ++ [.leaf (es.drop left) next])
              ((es[left]?.map Prod.fst).getD 0) rpid)
          else some (.null (pages.set pid (.leaf es next)))
    | some (.node keys children) =>
      let i := (keys.takeWhile (· ≤ key)).length
      match children[i]? with
      | none => none
      | some child =>
        match node_insert grant key val allow_dup fuel pages child with
        | some (.split pages sep cr) =>
          let keys := keys.insertIdx i sep
          let children := children.insertIdx (i + 1) cr
          if keys.length ≤ BT_MAX_KEYS then some (.fit (pages.set pid (.node keys children)))
          else
            let mid := keys.length / 2
            let rpid := pages.length
            if grant rpid then
              some (.split (pages.set pid (.node (keys.take mid) (children.take (mid + 1))) ++
                  [.node (keys.drop (mid + 1)) (children.drop (mid + 1))])
                (keys[mid]?.getD 0) rpid)
            else some (.null (pages.set pid (.node keys children)))
        | r => r
    | _ => none

/-- The tree after an insertion, or the pages when it stores through NULL. -/
def insert_root (grant : Nat → Bool) (bt : BTree) (key val : Int) (allow_dup : Bool) :
    Option (BTree ⊕ List BTPage) :=
  match node_insert grant key val allow_dup bt.pages.length bt.pages bt.root with
  | none => none
  | some (.fit pages) => some (.inl ⟨pages, bt.root⟩)
  | some (.null pages) => some (.inr pages)
  | some (.split pages sep right) =>
    let nr := pages.length
    if grant nr then
      some (.inl ⟨(pages ++ [BTPage.node [sep] [bt.root, right]]).set 0 (.info nr), nr⟩)
    else some (.inr pages)

/-- How many pages an insertion asks for at a page and below it, and whether the
    page is split: a full leaf is, and a full page above a child that is. -/
def asks (key : Int) (allow_dup : Bool) (pages : List BTPage) : Nat → Nat → Nat × Bool
  | 0, _ => (0, false)
  | fuel + 1, pid =>
    match pages[pid]? with
    | some (.leaf es _) =>
      if !allow_dup && (es.dropWhile (·.1 < key)).head?.map Prod.fst == some key then (0, false)
      else if es.length < BT_MAX_KEYS then (0, false)
      else (1, true)
    | some (.node keys children) =>
      match children[(keys.takeWhile (· ≤ key)).length]? with
      | none => (0, false)
      | some child =>
        let below := asks key allow_dup pages fuel child
        if below.2 = false ∨ keys.length < BT_MAX_KEYS then (below.1, false) else (below.1 + 1, true)
    | _ => (0, false)

/-- With the new root, if the old one is split. -/
def new_pages (bt : BTree) (key : Int) (allow_dup : Bool) : Nat :=
  let need := asks key allow_dup bt.pages bt.pages.length bt.root
  if need.2 then need.1 + 1 else need.1

/-- What `Paged.node_insert` returns, as an outcome. -/
def result (pages : List BTPage) : Option (Int × Nat) → Inserted
  | none => .fit pages
  | some (sep, right) => .split pages sep right

/-- With every page it asks for, the insertion into `pages` is that of `Paged`; where
    one is refused, the pages are not the `old` ones when it stores through NULL. -/
structure Threaded (grant : Nat → Bool) (old pages pages' : List BTPage) (r : Option (Int × Nat))
    (out : Option Inserted) (need : Nat × Bool) : Prop where
  length : pages'.length = pages.length + need.1
  up : need.2 = r.isSome
  asked : need.2 = true → 0 < need.1
  granted : (∀ k < need.1, grant (pages.length + k) = true) → out = some (result pages' r)
  refused : (∃ k < need.1, grant (pages.length + k) = false) → ∃ q, out = some (.null q) ∧ q ≠ old

variable {grant : Nat → Bool} {key val : Int} {allow_dup : Bool} {old pages pages' : List BTPage}
  {need : Nat × Bool}

theorem granted_or_refused (grant : Nat → Bool) (p n : Nat) :
    (∀ k < n, grant (p + k) = true) ∨ ∃ k < n, grant (p + k) = false := by
  simpa using em (∀ k < n, grant (p + k) = true)

theorem Threaded.fit {pid : Nat} {page : BTPage} :
    Threaded grant old pages (pages.set pid page) none (some (.fit (pages.set pid page)))
      (0, false) := by
  refine ⟨length_set, rfl, Bool.noConfusion, fun _ => rfl, ?_⟩
  rintro ⟨k, hlt, -⟩
  cases hlt

/-- The page is overfull when its right half is asked for. -/
theorem Threaded.split {pid : Nat} {full left right : BTPage} {sep : Int}
    (hover : pages.set pid full ≠ old) :
    Threaded grant old pages (pages.set pid left ++ [right]) (some (sep, pages.length))
      (if grant pages.length then some (.split (pages.set pid left ++ [right]) sep pages.length)
        else some (.null (pages.set pid full)))
      (1, true) := by
  refine ⟨by simp, rfl, fun _ => one_pos, fun hall => ?_, ?_⟩
  · have hgrant : grant pages.length = true := hall 0 one_pos
    rw [if_pos hgrant, result]
  · rintro ⟨k, hlt, hno⟩
    obtain rfl : k = 0 := Nat.lt_one_iff.mp hlt
    rw [Nat.add_zero] at hno
    rw [hno]
    exact ⟨_, rfl, hover⟩

/-- What happens above a child that was split. -/
theorem Threaded.above {pages₁ : List BTPage} {sep : Int} {cr : Nat} {r : Option (Int × Nat)}
    {out rest whole : Option Inserted} {need' : Nat × Bool}
    (h : Threaded grant old pages pages₁ (some (sep, cr)) out need)
    (hrest : Threaded grant old pages₁ pages' r rest need')
    (hsplit : out = some (.split pages₁ sep cr) → whole = rest)
    (hnull : ∀ q, out = some (.null q) → whole = some (.null q)) :
    Threaded grant old pages pages' r whole (need.1 + need'.1, need'.2) := by
  have hafter (k) : pages.length + (need.1 + k) = pages₁.length + k := by rw [h.length]; omega
  refine ⟨by rw [hrest.length, ← hafter], hrest.up, fun _ => ?_, fun hall => ?_, ?_⟩
  · exact (h.asked h.up).trans_le (Nat.le_add_right ..)
  · rw [hsplit (h.granted fun k hlt => hall k (by dsimp only; omega))]
    refine hrest.granted fun k hlt => ?_
    rw [← hafter]
    exact hall _ (Nat.add_lt_add_left hlt _)
  · rintro ⟨k, hlt, hno⟩
    rcases granted_or_refused grant pages.length need.1 with hall | hchild
    · obtain ⟨j, rfl⟩ : ∃ j, k = need.1 + j := by
        refine Nat.exists_eq_add_of_le (not_lt.mp fun hlt => ?_)
        simp [hall k hlt] at hno
      rw [hsplit (h.granted hall)]
      rw [hafter] at hno
      exact hrest.refused ⟨j, Nat.lt_of_add_lt_add_left hlt, hno⟩
    · obtain ⟨q, hq, hne⟩ := h.refused hchild
      exact ⟨q, hnull q hq, hne⟩

variable (grant) {fuel pid : Nat} {r : Option (Int × Nat)}

theorem leaf_threaded {es : List (Int × Int)} {next : Nat} (hpage : pages[pid]? = some (.leaf es next))
    (h : Paged.node_insert key val allow_dup (fuel + 1) pages pid = some (pages', r)) :
    Threaded grant pages pages pages' r (node_insert grant key val allow_dup (fuel + 1) pages pid)
      (asks key allow_dup pages (fuel + 1) pid) := by
  unfold Paged.node_insert at h
  unfold node_insert asks
  simp only [hpage] at h ⊢
  have hlen : (es.takeWhile (·.1 < key) ++ (key, val) :: es.dropWhile (·.1 < key)).length =
      es.length + 1 := by
    have hes := congrArg List.length (takeWhile_append_dropWhile (p := (·.1 < key)) (l := es))
    simp only [length_append, length_cons] at hes ⊢
    omega
  split at h
  · next hdup =>
    cases h
    rw [if_pos hdup, if_pos hdup]
    exact .fit
  · next hdup =>
    rw [if_neg hdup, if_neg hdup]
    split at h
    · next hfit =>
      cases h
      rw [if_pos hfit, if_pos (by omega)]
      exact .fit
    · next hfull =>
      cases h
      rw [if_neg hfull, if_neg (show ¬ es.length < BT_MAX_KEYS by omega)]
      refine .split fun heq => ?_
      -- the leaf has one entry more
      have hleaf := congrArg (·[pid]?) heq
      simp only [getElem?_set, if_pos, hpage] at hleaf
      split at hleaf
      · injection hleaf with hleaf
        injection hleaf with hes
        have := congrArg List.length hes
        omega
      · cases hleaf

theorem inner_threaded {keys : List Int} {children : List Nat}
    (ih : ∀ {pages' pid r}, Paged.node_insert key val allow_dup fuel pages pid = some (pages', r) →
      Threaded grant pages pages pages' r (node_insert grant key val allow_dup fuel pages pid)
        (asks key allow_dup pages fuel pid))
    (hpage : pages[pid]? = some (.node keys children))
    (h : Paged.node_insert key val allow_dup (fuel + 1) pages pid = some (pages', r)) :
    Threaded grant pages pages pages' r (node_insert grant key val allow_dup (fuel + 1) pages pid)
      (asks key allow_dup pages (fuel + 1) pid) := by
  unfold Paged.node_insert at h
  unfold node_insert asks
  simp only [hpage] at h ⊢
  cases hchild : children[(keys.takeWhile (· ≤ key)).length]? with
  | none => simp [hchild] at h
  | some child =>
    simp only [hchild] at h ⊢
    cases hins : Paged.node_insert key val allow_dup fuel pages child with
    | none => simp [hins] at h
    | some out =>
      obtain ⟨pages₁, up⟩ := out
      have hth := ih hins
      cases up with
      | none =>
        simp only [hins] at h
        cases h
        rw [if_pos (.inl hth.up)]
        refine ⟨hth.length, rfl, Bool.noConfusion, fun hall => ?_, fun hno => ?_⟩
        · rw [hth.granted hall, result]
        · obtain ⟨q, hq, hne⟩ := hth.refused hno
          exact ⟨q, by rw [hq], hne⟩
      | some up =>
        obtain ⟨sep, cr⟩ := up
        simp only [hins] at h
        have hsplit : (asks key allow_dup pages fuel child).2 = true := hth.up
        have hkeys : (keys.insertIdx (keys.takeWhile (· ≤ key)).length sep).length =
            keys.length + 1 := length_insertIdx_of_le_length (takeWhile_sublist _).length_le _
        split at h
        · next hfit =>
          cases h
          rw [if_pos (.inr (by omega))]
          refine hth.above .fit (fun hout => ?_) (fun q hout => by rw [hout])
          simp only [hout, if_pos hfit]
        · next hfull =>
          cases h
          rw [if_neg (not_or.mpr ⟨by simp [hsplit], by omega⟩)]
          have hover : pages₁.set pid (.node (keys.insertIdx (keys.takeWhile (· ≤ key)).length sep)
              (children.insertIdx ((keys.takeWhile (· ≤ key)).length + 1) cr)) ≠ pages := by
            intro heq
            -- the child has taken a page
            have hgrow := hth.length
            have hasked := hth.asked hth.up
            have hsame := congrArg List.length heq
            rw [length_set] at hsame
            omega
          refine hth.above (.split hover) (fun hout => ?_) (fun q hout => by rw [hout])
          simp only [hout, if_neg hfull]

theorem node_insert_threaded
    (h : Paged.node_insert key val allow_dup fuel pages pid = some (pages', r)) :
    Threaded grant pages pages pages' r (node_insert grant key val allow_dup fuel pages pid)
      (asks key allow_dup pages fuel pid) := by
  induction fuel generalizing pages' pid r with
  | zero => cases h
  | succ fuel ih =>
    cases hpage : pages[pid]? with
    | none => simp [Paged.node_insert, hpage] at h
    | some page =>
      cases page with
      | info root => simp [Paged.node_insert, hpage] at h
      | leaf es next => exact leaf_threaded grant hpage h
      | node keys children => exact inner_threaded grant ih hpage h

/-- A refused page never leaves the tree as it was. -/
theorem insert_root_threaded {bt bt' : BTree} (h : Paged.insert_root bt key val allow_dup = some bt') :
    ((∀ k < new_pages bt key allow_dup, grant (bt.pages.length + k) = true) →
        insert_root grant bt key val allow_dup = some (.inl bt')) ∧
      ((∃ k < new_pages bt key allow_dup, grant (bt.pages.length + k) = false) →
        ∃ q, insert_root grant bt key val allow_dup = some (.inr q) ∧ q ≠ bt.pages) := by
  unfold Paged.insert_root at h
  unfold insert_root new_pages
  cases hins : Paged.node_insert key val allow_dup bt.pages.length bt.pages bt.root with
  | none => simp [hins] at h
  | some out =>
    obtain ⟨pages, r⟩ := out
    have hth := node_insert_threaded grant hins
    have hup := hth.up
    cases r with
    | none =>
      simp only [hins] at h
      cases h
      simp only [hup]
      refine ⟨fun hall => ?_, fun hno => ?_⟩
      · rw [hth.granted hall, result]
      · obtain ⟨q, hq, hne⟩ := hth.refused hno
        exact ⟨q, by rw [hq], hne⟩
    | some up =>
      obtain ⟨sep, right⟩ := up
      simp only [hins] at h
      cases h
      simp only [hup, Option.isSome_some, if_true]
      have hlen := hth.length
      have hasked := hth.asked hup
      refine ⟨fun hall => ?_, ?_⟩
      · have hroot := hall _ (Nat.lt_succ_self _)
        rw [← hlen] at hroot
        rw [hth.granted fun k hlt => hall k (Nat.lt_succ_of_lt hlt)]
        simp only [result, hroot, if_true]
      · rintro ⟨k, hlt, hno⟩
        rcases granted_or_refused grant bt.pages.length _ with hall | hbelow
        · -- the halves of the old root are there, and no page above them
          have hk := le_antisymm (Nat.le_of_lt_succ hlt) (not_lt.mp fun hlt => by
            simp [hall k hlt] at hno)
          rw [hk, ← hlen] at hno
          rw [hth.granted hall]
          refine ⟨pages, by simp [result, hno], ?_⟩
          rintro rfl
          omega
        · obtain ⟨q, hq, hne⟩ := hth.refused hbelow
          exact ⟨q, by rw [hq], hne⟩

end Tree

/-- A refused page leaves no trace only where the file cannot grow, or where the
    page is none of the heap's; a tree that asks for it is never as it was. -/
theorem refused_page_iff (f : PagedFile) (hnull : (bufpool_new_page f).2 = none) :
    (NoTrace f (bufpool_new_page f).1 ↔ MAX_PAGES ≤ f.wal.data.num_pages) ∧
    (∀ h rec h₁, before_new h rec = some h₁ → h₁.file = f → InOrder h₁ →
      ∃ h', heap_insert h rec = some (h', none) ∧ (InOrder h' ↔
        MAX_PAGES ≤ f.wal.data.num_pages ∨ f.wal.data.num_pages < h₁.first_page)) ∧
    ∀ grant bt key val allow_dup bt', Paged.insert_root bt key val allow_dup = some bt' →
      ((∀ q, Tree.insert_root grant bt key val allow_dup = some (.inr q) → q = bt.pages) ↔
        ∀ k < Tree.new_pages bt key allow_dup, grant (bt.pages.length + k) = true) ∧
      (Tree.insert_root grant bt key val allow_dup = some (.inl bt') ↔
        ∀ k < Tree.new_pages bt key allow_dup, grant (bt.pages.length + k) = true) := by
  refine ⟨⟨fun htrace => ?_, fun hmax => ?_⟩, ?_, fun grant bt key val allow_dup bt' hins => ?_⟩
  · by_contra hlt
    have hcount := htrace.count
    rw [(new_page_refused hnull (not_le.mp hlt)).1] at hcount
    omega
  · rw [new_page_full hmax]
    exact ⟨⟨fun _ => rfl, rfl⟩, rfl⟩
  · rintro h rec h₁ hbefore rfl hord
    refine ⟨{ h₁ with file := (bufpool_new_page h₁.file).1 }, ?_, fun hord' => ?_, fun hcond => ?_⟩
    · rw [heap_insert_of_before_new hbefore, heap_insert_new,
        ← Prod.mk.eta (p := bufpool_new_page h₁.file), hnull]
    · by_contra hno
      obtain ⟨hlt, hge⟩ := not_or.mp hno
      obtain ⟨hcount, hview⟩ := new_page_refused hnull (not_le.mp hlt)
      -- the page that was left behind has no header
      obtain ⟨page, ls, fe, hpage, hlay⟩ := hord' _ (not_lt.mp hge) (by rw [hcount]; exact lt_add_one _)
      cases hpage.symm.trans hview
      exact not_layout_zero hlay
    · by_cases hmax : MAX_PAGES ≤ h₁.file.wal.data.num_pages
      · rw [new_page_full hmax]
        exact hord
      · intro p (hfirst : h₁.first_page ≤ p) hp
        have hcount := (new_page_refused hnull (not_le.mp hmax)).1
        rw [hcount] at hp
        have := hcond.resolve_left hmax
        omega
  · obtain ⟨hdone, hlost⟩ := Tree.insert_root_threaded grant hins
    rcases Tree.granted_or_refused grant bt.pages.length (Tree.new_pages bt key allow_dup) with hall | hno
    · simpa [hdone hall] using hall
    · obtain ⟨q, hq, hne⟩ := hlost hno
      simpa [hq, hne] using hno

/-- A pool of one frame, in which page 0 is pinned. -/
def pinned_pool : PagedFile where
  wal := wal_open ⟨[Page.zero], []⟩
  bp := { bufpool_create 1 with frames := [Frame.loaded 0 1 Page.zero] }
  txn_pages := 0

theorem refused_page_iff_pinned :
    (bufpool_new_page pinned_pool).2 = none ∧
      (NoTrace pinned_pool (bufpool_new_page pinned_pool).1 ↔
        MAX_PAGES ≤ pinned_pool.wal.data.num_pages) :=
  ⟨rfl, (refused_page_iff pinned_pool rfl).1⟩

/-- All frames are pinned: the page is refused, and counted. -/
theorem refused_page_is_counted :
    ¬ ∀ f, (bufpool_new_page f).2 = none → NoTrace f (bufpool_new_page f).1 := by
  intro hall
  have hcount := (hall pinned_pool rfl).count
  rw [(new_page_refused rfl (by decide)).1] at hcount
  omega

end MiniDb.HeapFile
