import MiniDb.Storage.PagePool
import MiniDb.Storage.SlotPage

/-! # Heap files (heap.c)

  A heap is a file of slotted pages behind a buffer pool; a record is found by
  its page and slot (`RID`).  The calls are translated with their fetches and
  unpins, and an access outside a page is an outer `none`, as in `SlotPage`.

  `HeapMap` is what a heap is for: a map from RIDs to records.  Every call
  does to the map what it says, as long as no record is so long that its
  length and a slot wrap in 16 bits. -/

namespace MiniDb.HeapFile

open Framework List SlotPage Option

structure RID where
  page_id : Nat
  slot : Nat
  deriving DecidableEq

structure Heap where
  file : PagedFile
  first_page : Nat

def heap_init (file : PagedFile) (first_page : Nat) : Heap := ⟨file, first_page⟩

/-- The bytes behind the pointer a fetch returns. -/
def page_of (f : PagedFile) (i : Nat) : Option Page := f.bp.frames[i]?.map Frame.data

/-! ### Calls -/

/-- Step 2 of `heap_insert`: a new page. -/
def heap_insert_new (h : Heap) (rec : List UInt8) : Option (Heap × Option RID) :=
  match bufpool_new_page h.file with
  | (f, none) => some ({ h with file := f }, none)
  | (f, some (target, i)) => do
      let page ← page_of f i
      let page ← SlotPage.slotpage_init page
      let (page, slot) ← SlotPage.slotpage_insert page rec
      let f := bufpool_unpin (store f target page) target true
      -- without a slot the record does not even fit an empty page
      some ({ h with file := f }, slot.map fun s => ⟨target, s⟩)

/-- The last page first, then a new one; the inner `none` is the return code -1. -/
def heap_insert (h : Heap) (rec : List UInt8) : Option (Heap × Option RID) :=
  if h.file.wal.data.num_pages > h.first_page then
    let target := h.file.wal.data.num_pages - 1
    match bufpool_fetch h.file target with
    | (f, none) => some ({ h with file := f }, none)
    | (f, some i) => do
        let page ← page_of f i
        match ← SlotPage.slotpage_insert page rec with
        | (page, some slot) =>
            let f := bufpool_unpin (store f target page) target true
            some ({ h with file := f }, some ⟨target, slot⟩)
        | (_, none) => heap_insert_new { h with file := bufpool_unpin f target false } rec
  else heap_insert_new h rec

/-- Run `body` on a page and unpin it; `body` gives the page back when it changed it. -/
def with_page {α : Type} (h : Heap) (page_id : Nat) (failed : α)
    (body : Page → Option (Option Page × α)) : Option (Heap × α) :=
  match bufpool_fetch h.file page_id with
  | (f, none) => some ({ h with file := f }, failed)
  | (f, some i) => do
      let page ← page_of f i
      match ← body page with
      | (some page, r) => some ({ h with file := bufpool_unpin (store f page_id page) page_id true }, r)
      | (none, r) => some ({ h with file := bufpool_unpin f page_id false }, r)

/-- The bytes of a record, as `slotpage_get` finds them. -/
def get_record (page : Page) (slot : Nat) : Option (Option (List UInt8)) := do
  match ← SlotPage.slotpage_get page slot with
  | none => some none
  | some s => (peek page s.offset s.length).map some

def get_body (slot : Nat) (page : Page) : Option (Option Page × Option (List UInt8)) :=
  (get_record page slot).map fun r => (none, r)

/-- `none` is the return code -1. -/
def heap_get (h : Heap) (rid : RID) : Option (Heap × Option (List UInt8)) :=
  with_page h rid.page_id none (get_body rid.slot)

/-- A page is unpinned as changed when the call on it returned 0. -/
def if_done (r : Page × Bool) : Option Page × Bool := (if r.2 then some r.1 else none, r.2)

def delete_body (slot : Nat) (page : Page) : Option (Option Page × Bool) :=
  (SlotPage.slotpage_delete page slot).map if_done

def heap_delete (h : Heap) (rid : RID) : Option (Heap × Bool) :=
  with_page h rid.page_id false (delete_body rid.slot)

def overwrite_body (slot : Nat) (rec : List UInt8) (page : Page) : Option (Option Page × Bool) :=
  (SlotPage.slotpage_overwrite page slot rec).map if_done

def heap_overwrite (h : Heap) (rid : RID) (rec : List UInt8) : Option (Heap × Bool) :=
  with_page h rid.page_id false (overwrite_body rid.slot rec)

/-- The slots of a page from `s` on, `n` of them: what is visited. -/
def scan_slots (page : Page) (pid : Nat) : Nat → Nat → Option (List (RID × List UInt8))
  | 0, _ => some []
  | n + 1, s => do
      let r ← get_record page s
      let rest ← scan_slots page pid n (s + 1)
      some (match r with
        | some bs => (⟨pid, s⟩, bs) :: rest
        | none => rest)

def scan_body (pid : Nat) (page : Page) :
    Option (Option Page × Option (List (RID × List UInt8))) :=
  (scan_slots page pid (SlotPage.slotpage_num_slots page) 0).map fun r => (none, some r)

/-- The pages from `pid` on, `n` of them; the inner `none` is a failed fetch. -/
def scan_pages (h : Heap) : Nat → Nat → Option (Heap × Option (List (RID × List UInt8)))
  | 0, _ => some (h, some [])
  | n + 1, pid => do
      let (h, r) ← with_page h pid none (scan_body pid)
      match r with
      | none => some (h, none)
      | some visited =>
          let (h, rest) ← scan_pages h n (pid + 1)
          some (h, rest.map (visited ++ ·))

/-- Everything a visitor that does not stop sees, in order. -/
def heap_scan (h : Heap) : Option (Heap × Option (List (RID × List UInt8))) :=
  scan_pages h (h.file.wal.data.num_pages - h.first_page) h.first_page

/-! ### The map a heap stands for -/

/-- The records of a heap. -/
abbrev HeapMap := RID → Option (List UInt8)

/-- What the slots of the pages say. -/
def record_at (pages : List (List (Option Placed))) (rid : RID) : Option (List UInt8) :=
  ((pages[rid.page_id]?.bind fun ls => ls[rid.slot]?).join).map Prod.snd

/-- The pages of the heap are in order, and their live slots are the records `m`. -/
structure Holds (h : Heap) (store : List Page) (pages : List (List (Option Placed))) : Prop where
  pool : PoolRefines ⟨h.file, store, []⟩
  frames : h.file.bp.frames ≠ []
  first : h.first_page = 0
  length : pages.length = store.length
  layout : ∀ (p : Nat) page ls, store[p]? = some page → pages[p]? = some ls → ∃ fe, Layout page ls fe

/-- The heap stands for the map `m`. -/
def Represents (h : Heap) (m : HeapMap) : Prop :=
  ∃ store pages, Holds h store pages ∧ ∀ rid, record_at pages rid = m rid

/-! ### Pages behind the pool -/

variable (f : PagedFile)

theorem evict_bp (v : Frame) : (evict f v).1.bp = f.bp := by
  unfold evict
  split
  · split <;> rfl
  · rfl

/-- The pool keeps its frames. -/
theorem frames_fetch (p : Nat) :
    (bufpool_fetch f p).1.bp.frames.length = f.bp.frames.length := by
  have hpick : ∀ f : PagedFile, (pick_frame f).1.bp.frames.length = f.bp.frames.length := by
    intro f
    unfold pick_frame
    split
    · rfl
    split
    · rfl
    · dsimp only
      split <;> simp [PagedFile.set_frame, evict_bp]
  unfold bufpool_fetch
  split
  · simp [PagedFile.modify_frame]
  · dsimp only
    split
    · exact hpick _
    · split
      · simpa [PagedFile.modify_frame] using hpick { f with bp := { f.bp with misses := f.bp.misses + 1 } }
      · simpa [PagedFile.set_frame] using hpick { f with bp := { f.bp with misses := f.bp.misses + 1 } }

theorem frames_new_page :
    (bufpool_new_page f).1.bp.frames.length = f.bp.frames.length := by
  unfold bufpool_new_page
  dsimp only
  split
  · rfl
  · exact frames_fetch _ _

theorem frames_store (p : Nat) (buf : Page) :
    (store f p buf).bp.frames.length = f.bp.frames.length := by
  unfold store
  split <;> simp [PagedFile.modify_frame]

theorem frames_unpin (p : Nat) (d : Bool) :
    (bufpool_unpin f p d).bp.frames.length = f.bp.frames.length := by
  unfold bufpool_unpin
  split <;> simp [PagedFile.modify_frame]

/-- A page on loan: it is pinned, and can be given back changed or unchanged. -/
structure Loan (f : PagedFile) (store : List Page) (p : Nat) : Prop where
  back : PoolRefines ⟨bufpool_unpin f p false, store, []⟩
  changed : ∀ page, PoolRefines ⟨bufpool_unpin (MiniDb.store f p page) p true, store.set p page, []⟩

variable {f : PagedFile} {store : List Page} {p : Nat}

theorem loan_of_pinned (h : PoolRefines ⟨f, store, [⟨p, false⟩]⟩) : Loan f store p where
  back := by
    have hs : PoolState.step ⟨f, store, [⟨p, false⟩]⟩ (.unpin ⟨p, false⟩ false) =
        some ⟨bufpool_unpin f p false, store, []⟩ := by
      simp [PoolState.step]
    exact h.unpin hs
  changed page := by
    have hw : PoolState.step ⟨f, store, [⟨p, false⟩]⟩ (.write ⟨p, false⟩ page) =
        some ⟨MiniDb.store f p page, store.set p page, [⟨p, true⟩]⟩ := by
      simp [PoolState.step]
    have hs : PoolState.step ⟨MiniDb.store f p page, store.set p page, [⟨p, true⟩]⟩
        (.unpin ⟨p, true⟩ true) =
        some ⟨bufpool_unpin (MiniDb.store f p page) p true, store.set p page, []⟩ := by
      simp [PoolState.step]
    exact (h.write hw).unpin hs

/-- With no pins held, no frame is pinned. -/
theorem not_all_pinned (h : PoolRefines ⟨f, store, []⟩) (hframes : f.bp.frames ≠ []) :
    ¬ ∀ fr ∈ f.bp.frames, fr.pin_count ≠ 0 := by
  intro hall
  obtain ⟨fr, hfr⟩ := exists_mem_of_ne_nil _ hframes
  refine hall fr hfr ?_
  cases hv : fr.valid with
  | false => exact h.plain.free fr hfr hv
  | true =>
    obtain ⟨i, hi⟩ := mem_iff_getElem?.1 hfr
    have hpins := h.pins fr.page_id
    rw [h.plain.cache.pins_of_caches ⟨hi, hv, rfl⟩] at hpins
    exact hpins

/-- A fetch of an existing page puts it on loan. -/
theorem fetch_loan (h : PoolRefines ⟨f, store, []⟩) (hframes : f.bp.frames ≠ [])
    (hp : p < store.length) :
    ∃ f' i page, bufpool_fetch f p = (f', some i) ∧ page_of f' i = some page ∧
      store[p]? = some page ∧ Loan f' store p := by
  have hf := h.plain.fetch p
  have hnum : f.wal.data.num_pages = store.length := h.count
  cases hr : (bufpool_fetch f p).2 with
  | none => exact absurd (hf.fails (hnum.symm ▸ hp) hr) (not_all_pinned h hframes)
  | some i =>
    obtain ⟨fr, hc⟩ := hf.shows i hr
    have hs : PoolState.step ⟨f, store, []⟩ (.fetch p) =
        some ⟨(bufpool_fetch f p).1, store, [⟨p, false⟩]⟩ := by
      simp [PoolState.step, hr]
    have hrefines := h.fetch hs
    refine ⟨(bufpool_fetch f p).1, i, fr.data, Prod.ext rfl hr, ?_, ?_, loan_of_pinned hrefines⟩
    · rw [page_of, hc.at_index]
      rfl
    · have hview := hrefines.view p
      rw [hrefines.plain.cache.view_cached hc] at hview
      exact hview.symm

/-- There is no other page. -/
theorem fetch_missing (h : PoolRefines ⟨f, store, []⟩) (hp : store.length ≤ p) :
    ∃ f', bufpool_fetch f p = (f', none) ∧ PoolRefines ⟨f', store, []⟩ := by
  have hf := h.plain.fetch p
  have hnum : f.wal.data.num_pages = store.length := h.count
  cases hr : (bufpool_fetch f p).2 with
  | none =>
    have hs : PoolState.step ⟨f, store, []⟩ (.fetch p) =
        some ⟨(bufpool_fetch f p).1, store, []⟩ := by
      simp [PoolState.step, hr]
    exact ⟨_, Prod.ext rfl hr, h.fetch hs⟩
  | some i =>
    obtain ⟨fr, hc⟩ := hf.shows i hr
    have hlt := hf.plain.cache.counted i fr p hc
    rw [hf.same.count, hnum] at hlt
    omega

/-- A new page is zero and on loan; there is none only at the end of the address space. -/
theorem new_page_loan (h : PoolRefines ⟨f, store, []⟩) (hframes : f.bp.frames ≠ []) :
    (∃ f' i, bufpool_new_page f = (f', some (store.length, i)) ∧ page_of f' i = some Page.zero ∧
      Loan f' (store ++ [Page.zero]) store.length) ∨
    MAX_PAGES ≤ store.length ∧ bufpool_new_page f = (f, none) := by
  have hnum : f.wal.data.num_pages = store.length := h.count
  by_cases hlt : f.wal.data.num_pages < MAX_PAGES
  · left
    obtain ⟨g, halloc, hg, hplain, hcount, hview⟩ := h.plain.allocate hlt
    have hf := hplain.fetch f.wal.data.num_pages
    have heq : bufpool_new_page f = ((bufpool_fetch g f.wal.data.num_pages).1,
        (bufpool_fetch g f.wal.data.num_pages).2.map fun i => (f.wal.data.num_pages, i)) := by
      rw [bufpool_new_page, halloc, ← hg]
    have hgf : g.bp.frames = f.bp.frames := by rw [hg]
    cases hr : (bufpool_fetch g f.wal.data.num_pages).2 with
    | none =>
      refine absurd (hf.fails (by rw [hcount]; exact Nat.lt_succ_self _) hr) ?_
      rw [hgf]
      exact not_all_pinned h hframes
    | some i =>
      obtain ⟨fr, hc⟩ := hf.shows i hr
      rw [hr, hnum] at heq
      have hs : PoolState.step ⟨f, store, []⟩ .new_page =
          some ⟨(bufpool_new_page f).1, store ++ [Page.zero], [⟨store.length, false⟩]⟩ := by
        simp [PoolState.step, hlt, heq]
      have hrefines := h.new_page hs
      rw [heq] at hrefines
      refine ⟨_, i, heq, ?_, loan_of_pinned hrefines⟩
      rw [hnum] at hc
      have hzero := hrefines.view store.length
      rw [hrefines.plain.cache.view_cached hc, getElem?_concat_length] at hzero
      rw [page_of, hc.at_index, map_some, some.inj hzero]
  · refine .inr ⟨hnum ▸ not_lt.1 hlt, ?_⟩
    simp only [bufpool_new_page, pager_allocate_eq, if_neg hlt]

/-! ### Calls that stay on one page -/

namespace Holds

variable {h : Heap} {pages : List (List (Option Placed))}

variable (hold : Holds h store pages) {f' : PagedFile} {ls : List (Option Placed)}

include hold

/-- The same records in another pool state. -/
theorem congr (hpool : PoolRefines ⟨f', store, []⟩)
    (hframes : f'.bp.frames.length = h.file.bp.frames.length) :
    Holds { h with file := f' } store pages :=
  ⟨hpool, fun hnil => hold.frames (length_eq_zero_iff.1 (by rw [← hframes, hnil]; rfl)),
    hold.first, hold.length, hold.layout⟩

/-- One page is replaced by another one in order. -/
theorem set {page : Page} {fe : Nat}
    (hpool : PoolRefines ⟨f', store.set p page, []⟩)
    (hframes : f'.bp.frames.length = h.file.bp.frames.length) (hlay : Layout page ls fe) :
    Holds { h with file := f' } (store.set p page) (pages.set p ls) := by
  refine ⟨hpool, fun hnil => hold.frames (length_eq_zero_iff.1 (by rw [← hframes, hnil]; rfl)),
    hold.first, by simp [hold.length], fun q page' ls' hpage hls => ?_⟩
  by_cases hq : p = q
  · subst hq
    have hlt : p < store.length := by simpa using (List.getElem?_eq_some_iff.1 hpage).1
    rw [List.getElem?_set_self hlt] at hpage
    rw [List.getElem?_set_self (hold.length.symm ▸ hlt)] at hls
    cases hpage
    cases hls
    exact ⟨fe, hlay⟩
  · rw [List.getElem?_set_ne hq] at hpage hls
    exact hold.layout q page' ls' hpage hls

/-- A page of the heap, with what its slots say. -/
theorem page (hp : p < store.length) :
    ∃ page ls fe, store[p]? = some page ∧ pages[p]? = some ls ∧ Layout page ls fe := by
  have hpage := getElem?_eq_getElem hp
  have hls := getElem?_eq_getElem (hold.length.symm ▸ hp)
  obtain ⟨fe, hlay⟩ := hold.layout p _ _ hpage hls
  exact ⟨_, _, fe, hpage, hls, hlay⟩

/-- A page on loan goes back as it was or changed. -/
theorem fetch {page : Page} (hpage : store[p]? = some page) :
    ∃ f' i, bufpool_fetch h.file p = (f', some i) ∧ page_of f' i = some page ∧
      Holds { h with file := bufpool_unpin f' p false } store pages ∧
      ∀ {page' ls fe}, Layout page' ls fe →
        Holds { h with file := bufpool_unpin (MiniDb.store f' p page') p true } (store.set p page')
          (pages.set p ls) := by
  have hp := (List.getElem?_eq_some_iff.1 hpage).1
  obtain ⟨f', i, page', hfetch, hat, hpage', hloan⟩ := fetch_loan hold.pool hold.frames hp
  obtain rfl := mem_unique hpage hpage'
  have hframes := frames_fetch h.file p
  rw [hfetch] at hframes
  refine ⟨f', i, hfetch, hat, hold.congr hloan.back ((frames_unpin _ _ _).trans hframes), ?_⟩
  refine fun hlay => hold.set (hloan.changed _) ?_ hlay
  rw [frames_unpin, frames_store]
  exact hframes

variable {α : Type} {failed : α} {body : Page → Option (Option Page × α)}

theorem with_missing (hp : store.length ≤ p) :
    ∃ h', with_page h p failed body = some (h', failed) ∧ Holds h' store pages := by
  obtain ⟨f', hfetch, hpool⟩ := fetch_missing hold.pool hp
  have hframes := frames_fetch h.file p
  rw [hfetch] at hframes
  exact ⟨_, by rw [with_page, hfetch], hold.congr hpool hframes⟩

/-- A call that leaves its page as it is. -/
theorem with_read {page : Page} (hpage : store[p]? = some page) {r : α}
    (hbody : body page = some (none, r)) :
    ∃ h', with_page h p failed body = some (h', r) ∧ Holds h' store pages := by
  obtain ⟨f', i, hfetch, hat, hback, -⟩ := hold.fetch hpage
  refine ⟨_, ?_, hback⟩
  rw [with_page, hfetch]
  simp [hat, hbody]

/-- A call that changes its page. -/
theorem with_change {page page' : Page} (hpage : store[p]? = some page) {r : α}
    (hbody : body page = some (some page', r)) {fe : Nat}
    (hlay : Layout page' ls fe) :
    ∃ h', with_page h p failed body = some (h', r) ∧
      Holds h' (store.set p page') (pages.set p ls) := by
  obtain ⟨f', i, hfetch, hat, -, hchanged⟩ := hold.fetch hpage
  refine ⟨_, ?_, hchanged hlay⟩
  rw [with_page, hfetch]
  simp [hat, hbody]

end Holds

/-! ### What the calls do to the map -/

/-- A map with one record changed. -/
def HeapMap.put (m : HeapMap) (rid : RID) (r : Option (List UInt8)) : HeapMap :=
  fun rid' => if rid' = rid then r else m rid'

variable {pages : List (List (Option Placed))} {rid : RID}

theorem record_at_missing
    (h : pages.length ≤ rid.page_id) : record_at pages rid = none := by
  rw [record_at, getElem?_eq_none h]
  rfl

variable {ls : List (Option Placed)}

theorem record_at_page
    (h : pages[rid.page_id]? = some ls) :
    record_at pages rid = (ls[rid.slot]?.join).map Prod.snd := by
  rw [record_at, h]
  rfl

/-- The records when one page is replaced. -/
theorem record_at_set (rid : RID) {l : Option Placed}
    (hp : rid.page_id < pages.length)
    (hsame : ∀ s, s ≠ rid.slot → ls[s]?.join = (pages[rid.page_id]?.bind fun ls => ls[s]?).join)
    (hnew : ls[rid.slot]?.join = l) :
    record_at (pages.set rid.page_id ls) = HeapMap.put (record_at pages) rid (l.map Prod.snd) := by
  funext rid'
  unfold HeapMap.put
  by_cases hpage : rid'.page_id = rid.page_id
  · have hls : (pages.set rid.page_id ls)[rid'.page_id]? = some ls := by
      rw [hpage, getElem?_set_self hp]
    rw [record_at_page hls]
    by_cases hslot : rid'.slot = rid.slot
    · obtain rfl : rid' = rid := by
        cases rid'
        cases rid
        simp_all
      rw [if_pos rfl, hnew]
    · rw [if_neg fun heq => hslot (congrArg RID.slot heq), hsame _ hslot, record_at, hpage]
  · rw [if_neg fun heq => hpage (congrArg RID.page_id heq), record_at, record_at,
      getElem?_set_ne (Ne.symm hpage)]

theorem record_at_set_slot (l : Option Placed)
    (hls : pages[rid.page_id]? = some ls) (hs : rid.slot < ls.length) :
    record_at (pages.set rid.page_id (ls.set rid.slot l)) =
      HeapMap.put (record_at pages) rid (l.map Prod.snd) := by
  refine record_at_set rid (List.getElem?_eq_some_iff.1 hls).1 (fun s hne => ?_) ?_
  · rw [List.getElem?_set_ne (Ne.symm hne), hls]
    rfl
  · rw [List.getElem?_set_self hs]
    rfl

theorem record_at_push (x : Placed)
    (hls : pages[p]? = some ls) :
    record_at (pages.set p (ls ++ [some x])) =
      HeapMap.put (record_at pages) ⟨p, ls.length⟩ (some x.2) := by
  refine record_at_set ⟨p, ls.length⟩ (l := some x) (List.getElem?_eq_some_iff.1 hls).1 (fun s hne => ?_) ?_
  · dsimp only at hne ⊢
    rw [hls]
    rcases lt_or_ge s ls.length with hs | hs
    · rw [List.getElem?_append_left hs]
      rfl
    · rw [List.getElem?_eq_none (by simp; omega), bind_some, List.getElem?_eq_none hs]
  · dsimp only
    rw [List.getElem?_concat_length]
    rfl

theorem get_record_layout {page : Page} {fe : Nat} (hlay : Layout page ls fe) (slot : Nat) :
    get_record page slot = some ((ls[slot]?.join).map Prod.snd) := by
  rw [get_record, hlay.get slot]
  cases hl : ls[slot]?.join with
  | none => rfl
  | some x =>
    have hmem : some x ∈ ls := by
      cases hget : ls[slot]? with
      | none => simp [hget] at hl
      | some l =>
        rw [hget] at hl
        cases hl
        exact mem_of_getElem? hget
    simp [hlay.peek_record hmem]

section Calls

variable {h : Heap} {m : HeapMap} {pages : List (List (Option Placed))}

theorem Represents.get (hrep : Represents h m) (rid : RID) :
    ∃ h', heap_get h rid = some (h', m rid) ∧ Represents h' m := by
  obtain ⟨store, pages, hold, hm⟩ := hrep
  rcases lt_or_ge rid.page_id store.length with hp | hp
  · obtain ⟨page, ls, fe, hpage, hls, hlay⟩ := hold.page hp
    have hbody : get_body rid.slot page = some (none, m rid) := by
      rw [get_body, get_record_layout hlay, ← hm, record_at_page hls]
      rfl
    obtain ⟨h', hcall, hold'⟩ := hold.with_read hpage hbody
    exact ⟨h', hcall, store, pages, hold', hm⟩
  · obtain ⟨h', hcall, hold'⟩ := hold.with_missing hp
    refine ⟨h', ?_, store, pages, hold', hm⟩
    rw [← hm, record_at_missing (hold.length.symm ▸ hp)]
    exact hcall

theorem Represents.delete (hrep : Represents h m) (rid : RID) :
    ∃ h' ok, heap_delete h rid = some (h', ok) ∧ (ok = false → m rid = none) ∧
      Represents h' (if ok then m.put rid none else m) := by
  obtain ⟨store, pages, hold, hm⟩ := hrep
  rcases lt_or_ge rid.page_id store.length with hp | hp
  · obtain ⟨page, ls, fe, hpage, hls, hlay⟩ := hold.page hp
    rcases lt_or_ge rid.slot ls.length with hs | hs
    · obtain ⟨page', hdel, hlay'⟩ := hlay.delete hs
      have hbody : delete_body rid.slot page = some (some page', true) := by
        rw [delete_body, hdel]
        rfl
      obtain ⟨h', hcall, hold'⟩ := hold.with_change hpage hbody hlay'
      refine ⟨h', true, hcall, nofun, _, _, hold', fun rid' => ?_⟩
      rw [record_at_set_slot none hls hs]
      simp only [HeapMap.put, hm, if_true, map_none]
    · -- no such slot: nothing happens
      have hbody : delete_body rid.slot page = some (none, false) := by
        rw [delete_body, SlotPage.slotpage_delete, hlay.count, if_pos hs]
        rfl
      obtain ⟨h', hcall, hold'⟩ := hold.with_read hpage hbody
      refine ⟨h', false, hcall, fun _ => ?_, store, pages, hold', hm⟩
      rw [← hm, record_at_page hls, getElem?_eq_none hs]
      rfl
  · obtain ⟨h', hcall, hold'⟩ := hold.with_missing hp
    refine ⟨h', false, hcall, fun _ => ?_, store, pages, hold', hm⟩
    rw [← hm, record_at_missing (hold.length.symm ▸ hp)]

theorem Represents.overwrite (hrep : Represents h m) (rid : RID) (rec : List UInt8) :
    ∃ h' ok, heap_overwrite h rid rec = some (h', ok) ∧
      (ok = true ↔ ∃ old, m rid = some old ∧ old.length = rec.length) ∧
      Represents h' (if ok then m.put rid (some rec) else m) := by
  obtain ⟨store, pages, hold, hm⟩ := hrep
  rcases lt_or_ge rid.page_id store.length with hp | hp
  · obtain ⟨page, ls, fe, hpage, hls, hlay⟩ := hold.page hp
    by_cases hlive : ∃ x, ls[rid.slot]? = some (some x) ∧ x.2.length = rec.length
    · obtain ⟨x, hx, hlen⟩ := hlive
      obtain ⟨page', hover, hlay'⟩ := hlay.overwrite hx hlen.symm
      have hbody : overwrite_body rid.slot rec page = some (some page', true) := by
        rw [overwrite_body, hover]
        rfl
      obtain ⟨h', hcall, hold'⟩ := hold.with_change hpage hbody hlay'
      refine ⟨h', true, hcall, ⟨fun _ => ⟨x.2, ?_, hlen⟩, fun _ => rfl⟩, _, _, hold',
        fun rid' => ?_⟩
      · rw [← hm, record_at_page hls, hx]
        rfl
      · rw [record_at_set_slot (some (x.1, rec)) hls (List.getElem?_eq_some_iff.1 hx).1]
        simp only [HeapMap.put, hm, if_true, map_some]
    · have hbody : overwrite_body rid.slot rec page = some (none, false) := by
        rw [overwrite_body, hlay.overwrite_refused fun x hx hlen => hlive ⟨x, hx, hlen⟩]
        rfl
      obtain ⟨h', hcall, hold'⟩ := hold.with_read hpage hbody
      refine ⟨h', false, hcall, ⟨nofun, ?_⟩, store, pages, hold', hm⟩
      rintro ⟨old, hold₀, hlen⟩
      rw [← hm, record_at_page hls] at hold₀
      obtain ⟨x, hx, rfl⟩ := map_eq_some_iff.1 hold₀
      exact absurd ⟨x, join_eq_some_iff.1 hx, hlen⟩ hlive
  · obtain ⟨h', hcall, hold'⟩ := hold.with_missing hp
    refine ⟨h', false, hcall, ⟨nofun, ?_⟩, store, pages, hold', hm⟩
    rintro ⟨old, hold₀, -⟩
    rw [← hm, record_at_missing (hold.length.symm ▸ hp)] at hold₀
    cases hold₀

/-- The records with one page more. -/
theorem record_at_append (ls : List (Option Placed)) (rid : RID) :
    record_at (pages ++ [ls]) rid =
      if rid.page_id = pages.length then (ls[rid.slot]?.join).map Prod.snd else record_at pages rid := by
  split
  · next hp =>
    refine record_at_page ?_
    rw [hp, getElem?_concat_length]
  · next hp =>
    rcases lt_or_ge rid.page_id pages.length with hlt | hge
    · rw [record_at, record_at, getElem?_append_left hlt]
    · rw [record_at_missing hge, record_at_missing (by simp; omega)]

variable {ls : List (Option Placed)} {rec : List UInt8} {f' : PagedFile} {rid : RID}
  {bs : List UInt8}

/-- A new page in order at the end. -/
theorem Holds.append (hold : Holds h store pages) {page : Page} {fe : Nat}
    (hpool : PoolRefines ⟨f', (store ++ [Page.zero]).set store.length page, []⟩)
    (hframes : f'.bp.frames.length = h.file.bp.frames.length) (hlay : Layout page ls fe) :
    Holds { h with file := f' } (store ++ [page]) (pages ++ [ls]) := by
  have hset : (store ++ [Page.zero]).set store.length page = store ++ [page] := by
    rw [set_append_right _ _ le_rfl, Nat.sub_self]
    rfl
  rw [hset] at hpool
  refine ⟨hpool, fun hnil => hold.frames (length_eq_zero_iff.1 (by rw [← hframes, hnil]; rfl)),
    hold.first, by simp [hold.length], fun q page' ls' hpage hls => ?_⟩
  rcases lt_or_ge q store.length with hq | hq
  · rw [List.getElem?_append_left hq] at hpage
    rw [List.getElem?_append_left (hold.length.symm ▸ hq)] at hls
    exact hold.layout q page' ls' hpage hls
  · have hlt : q < (store ++ [page]).length := (List.getElem?_eq_some_iff.1 hpage).1
    obtain rfl : q = store.length := by
      rw [length_append, length_singleton] at hlt
      omega
    rw [List.getElem?_concat_length] at hpage
    rw [← hold.length, List.getElem?_concat_length] at hls
    cases hpage
    cases hls
    exact ⟨fe, hlay⟩

/-- What an insert has to do to the map. -/
def Inserts (m : HeapMap) (rec : List UInt8) (r : Heap × Option RID) : Prop :=
  match r.2 with
  | some rid => m rid = none ∧ Represents r.1 (m.put rid (some rec))
  | none => Represents r.1 m

theorem heap_insert_new_eq {target i : Nat} {page₀ page₁ : Page}
    (hnew : bufpool_new_page h.file = (f', some (target, i))) (hat : page_of f' i = some page₀)
    (hinit : SlotPage.slotpage_init page₀ = some page₁) :
    heap_insert_new h rec = (SlotPage.slotpage_insert page₁ rec).map fun r =>
      ({ h with file := bufpool_unpin (MiniDb.store f' target r.1) target true },
        r.2.map fun s => ⟨target, s⟩) := by
  unfold heap_insert_new
  simp only [hnew]
  rw [hat, bind_eq_bind, bind_some, hinit, bind_eq_bind, bind_some]
  cases SlotPage.slotpage_insert page₁ rec <;> rfl

theorem Represents.insert_new (hrep : Represents h m) (hlen : rec.length + 4 < 65536) :
    ∃ r, heap_insert_new h rec = some r ∧ Inserts m rec r := by
  obtain ⟨store, pages, hold, hm⟩ := hrep
  rcases new_page_loan hold.pool hold.frames with ⟨f', i, hnew, hzero, hloan⟩ | ⟨-, hnew⟩
  · obtain ⟨page₀, hat⟩ : ∃ page, page_of f' i = some page := ⟨_, hzero⟩
    have hframes := frames_new_page h.file
    rw [hnew] at hframes
    have hback : ∀ page, (bufpool_unpin (MiniDb.store f' store.length page) store.length
        true).bp.frames.length = h.file.bp.frames.length := fun page => by
      rw [frames_unpin, frames_store]
      exact hframes
    obtain ⟨page₁, hinit, hlay₁⟩ := Layout.init page₀
    have hins := hlay₁.insert hlen
    by_cases hfits : slot_off ([] : List (Option Placed)).length + (rec.length + 4) ≤ PAGE_SIZE
    · rw [if_pos hfits] at hins
      obtain ⟨page₂, hins, hlay₂⟩ := hins
      refine ⟨({ h with file := bufpool_unpin (MiniDb.store f' store.length page₂) store.length true },
        some ⟨store.length, 0⟩), ?_, ?_, _, _,
        hold.append (hloan.changed page₂) (hback page₂) hlay₂, fun rid => ?_⟩
      · rw [heap_insert_new_eq hnew hat hinit, hins]
        rfl
      · rw [← hm, record_at_missing (by rw [hold.length])]
      · -- the new page has one slot
        rw [record_at_append, HeapMap.put, hold.length]
        by_cases hrid : rid = ⟨store.length, 0⟩
        · rw [hrid]
          simp
        · rw [if_neg hrid]
          split
          · next hp =>
            have hs : rid.slot ≠ 0 := by
              intro hs
              apply hrid
              cases rid
              simp_all
            rw [← hm, record_at_missing (by rw [hold.length, hp])]
            obtain ⟨s, hs⟩ := Nat.exists_eq_succ_of_ne_zero hs
            rw [hs]
            rfl
          · exact hm rid
    · -- too long for an empty page: the page stays, and is empty
      rw [if_neg hfits] at hins
      refine ⟨({ h with file := bufpool_unpin (MiniDb.store f' store.length page₁) store.length true },
        none), ?_, _, _, hold.append (hloan.changed page₁) (hback page₁) hlay₁,
        fun rid => ?_⟩
      · rw [heap_insert_new_eq hnew hat hinit, hins]
        rfl
      · rw [record_at_append]
        split
        · next hp =>
          rw [← hm, record_at_missing (by rw [hp])]
          rfl
        · exact hm rid
  · refine ⟨(h, none), ?_, store, pages, hold, hm⟩
    rw [heap_insert_new, hnew]

theorem Represents.insert (hrep : Represents h m) (hlen : rec.length + 4 < 65536) :
    ∃ r, heap_insert h rec = some r ∧ Inserts m rec r := by
  obtain ⟨store, pages, hold, hm⟩ := id hrep
  have hnum : h.file.wal.data.num_pages = store.length := hold.pool.count
  rw [heap_insert]
  by_cases hpos : store.length > 0
  · rw [if_pos (by rw [hold.first, hnum]; exact hpos), hnum]
    obtain ⟨page, ls, fe, hpage, hls, hlay⟩ := hold.page (Nat.sub_lt hpos one_pos)
    obtain ⟨f', i, hfetch, hat, hback, hchanged⟩ := hold.fetch hpage
    dsimp only
    rw [hfetch]
    dsimp only
    simp only [hat, bind_eq_bind, bind_some]
    have hins := hlay.insert hlen
    split at hins
    · obtain ⟨page₂, hins, hlay₂⟩ := hins
      rw [hins]
      refine ⟨_, rfl, ?_, _, _, hchanged hlay₂, fun rid => ?_⟩
      · -- the slot behind the last one holds nothing
        rw [← hm, record_at_page hls, getElem?_eq_none le_rfl]
        rfl
      · rw [record_at_push _ hls]
        simp only [HeapMap.put, hm]
    · rw [hins]
      exact Represents.insert_new ⟨store, pages, hback, hm⟩ hlen
  · rw [if_neg (by rw [hold.first, hnum]; exact hpos)]
    exact hrep.insert_new hlen

/-! ### Scans -/

/-- The live slots from `s` on. -/
def live_slots (pid : Nat) : Nat → List (Option Placed) → List (RID × List UInt8)
  | _, [] => []
  | s, some x :: ls => (⟨pid, s⟩, x.2) :: live_slots pid (s + 1) ls
  | s, none :: ls => live_slots pid (s + 1) ls

/-- The live slots of the pages from `pid` on. -/
def live_pages : Nat → List (List (Option Placed)) → List (RID × List UInt8)
  | _, [] => []
  | pid, ls :: pages => live_slots pid 0 ls ++ live_pages (pid + 1) pages

theorem scan_slots_layout {page : Page} {fe : Nat} (hlay : Layout page ls fe) (pid : Nat)
    (n s : Nat) (hn : s + n = ls.length) :
    scan_slots page pid n s = some (live_slots pid s (ls.drop s)) := by
  induction n generalizing s with
  | zero =>
    rw [drop_eq_nil_of_le (by omega)]
    rfl
  | succ n ih =>
    have hs : s < ls.length := by omega
    rw [scan_slots, get_record_layout hlay, ih (s + 1) (by omega), drop_eq_getElem_cons hs,
      getElem?_eq_getElem hs]
    cases ls[s] <;> rfl

theorem Holds.scan_pages (hold : Holds h store pages)
    (n pid : Nat) (hn : pid + n = store.length) :
    ∃ h', scan_pages h n pid = some (h', some (live_pages pid (pages.drop pid))) ∧
      Holds h' store pages := by
  induction n generalizing h pid with
  | zero =>
    rw [drop_eq_nil_of_le (by rw [hold.length]; omega)]
    exact ⟨h, rfl, hold⟩
  | succ n ih =>
    have hp : pid < store.length := by omega
    obtain ⟨page, ls, fe, hpage, hls, hlay⟩ := hold.page hp
    have hbody : scan_body pid page = some (none, some (live_slots pid 0 ls)) := by
      rw [scan_body, hlay.count, scan_slots_layout hlay pid ls.length 0 (Nat.zero_add _),
        drop_zero]
      rfl
    obtain ⟨h₁, hcall, hold₁⟩ := hold.with_read hpage hbody
    obtain ⟨h₂, hrest, hold₂⟩ := ih hold₁ (pid + 1) (by omega)
    obtain ⟨hlt, hget⟩ := List.getElem?_eq_some_iff.1 hls
    refine ⟨h₂, ?_, hold₂⟩
    rw [HeapFile.scan_pages, hcall, drop_eq_getElem_cons hlt, hget]
    simp [hrest, live_pages]

/-- The live slots of a page, in increasing order. -/
theorem mem_live_slots {pid s : Nat} :
    (rid, bs) ∈ live_slots pid s ls ↔
      rid.page_id = pid ∧ s ≤ rid.slot ∧ (ls[rid.slot - s]?.join).map Prod.snd = some bs := by
  induction ls generalizing s with
  | nil => simp [live_slots]
  | cons l ls ih =>
    -- the slots behind the first one
    have hrest : (rid, bs) ∈ live_slots pid (s + 1) ls ↔ rid.page_id = pid ∧ s < rid.slot ∧
        (((l :: ls)[rid.slot - s]?).join).map Prod.snd = some bs := by
      rw [ih]
      refine and_congr_right fun _ => ⟨fun ⟨hs, hr⟩ => ⟨hs, ?_⟩, fun ⟨hs, hr⟩ => ⟨hs, ?_⟩⟩
      · rw [show rid.slot - s = (rid.slot - (s + 1)) + 1 by omega, getElem?_cons_succ]
        exact hr
      · rw [show rid.slot - s = (rid.slot - (s + 1)) + 1 by omega, getElem?_cons_succ] at hr
        exact hr
    cases l with
    | none =>
      rw [live_slots, hrest]
      refine and_congr_right fun _ => ⟨fun ⟨hs, hr⟩ => ⟨hs.le, hr⟩, fun ⟨hs, hr⟩ => ⟨?_, hr⟩⟩
      rcases Nat.eq_or_lt_of_le hs with heq | hlt
      · rw [← heq, Nat.sub_self] at hr
        cases hr
      · exact hlt
    | some x =>
      rw [live_slots, mem_cons, hrest]
      constructor
      · rintro (heq | ⟨hp, hs, hr⟩)
        · cases heq
          exact ⟨rfl, le_rfl, by rw [Nat.sub_self]; rfl⟩
        · exact ⟨hp, hs.le, hr⟩
      · rintro ⟨hp, hs, hr⟩
        rcases Nat.eq_or_lt_of_le hs with heq | hlt
        · left
          rw [← heq, Nat.sub_self] at hr
          cases hr
          cases rid
          simp_all
        · exact .inr ⟨hp, hlt, hr⟩

theorem mem_live_pages {pid : Nat} :
    (rid, bs) ∈ live_pages pid pages ↔
      pid ≤ rid.page_id ∧ record_at pages ⟨rid.page_id - pid, rid.slot⟩ = some bs := by
  induction pages generalizing pid with
  | nil => simp [live_pages, record_at]
  | cons ls pages ih =>
    rw [live_pages, mem_append, mem_live_slots, ih]
    constructor
    · rintro (⟨hp, -, hr⟩ | ⟨hp, hr⟩)
      · refine ⟨hp.ge, ?_⟩
        rw [hp, Nat.sub_self]
        exact hr
      · refine ⟨by omega, ?_⟩
        rw [show rid.page_id - pid = (rid.page_id - (pid + 1)) + 1 by omega]
        exact hr
    · rintro ⟨hp, hr⟩
      rcases Nat.eq_or_lt_of_le hp with heq | hlt
      · rw [← heq, Nat.sub_self] at hr
        exact .inl ⟨heq.symm, Nat.zero_le _, hr⟩
      · rw [show rid.page_id - pid = (rid.page_id - (pid + 1)) + 1 by omega] at hr
        exact .inr ⟨hlt, hr⟩

/-- RIDs in the order of a scan. -/
def RID.lt (a b : RID) : Prop := a.page_id < b.page_id ∨ a.page_id = b.page_id ∧ a.slot < b.slot

theorem live_slots_sorted (pid s : Nat) (ls : List (Option Placed)) :
    (live_slots pid s ls).Pairwise fun a b => a.1.lt b.1 := by
  induction ls generalizing s with
  | nil => exact .nil
  | cons l ls ih =>
    cases l with
    | none => exact ih (s + 1)
    | some x =>
      refine .cons (fun b hb => ?_) (ih (s + 1))
      obtain ⟨hp, hs, -⟩ := mem_live_slots.1 hb
      exact .inr ⟨hp.symm, hs⟩

theorem live_pages_sorted (pid : Nat) (pages : List (List (Option Placed))) :
    (live_pages pid pages).Pairwise fun a b => a.1.lt b.1 := by
  induction pages generalizing pid with
  | nil => exact .nil
  | cons ls pages ih =>
    refine pairwise_append.2 ⟨live_slots_sorted pid 0 ls, ih (pid + 1), fun a ha b hb => ?_⟩
    obtain ⟨hp, -, -⟩ := mem_live_slots.1 ha
    obtain ⟨hq, -⟩ := mem_live_pages.1 hb
    exact .inl (by omega)

/-- A scan visits exactly the records, each once, in the order of their RIDs. -/
theorem Represents.scan (hrep : Represents h m) :
    ∃ h' visited, heap_scan h = some (h', some visited) ∧ Represents h' m ∧
      (visited.Pairwise fun a b => a.1.lt b.1) ∧
      ∀ rid bs, (rid, bs) ∈ visited ↔ m rid = some bs := by
  obtain ⟨store, pages, hold, hm⟩ := hrep
  have hnum : h.file.wal.data.num_pages = store.length := hold.pool.count
  obtain ⟨h', hscan, hold'⟩ := hold.scan_pages store.length 0 (Nat.zero_add _)
  rw [drop_zero] at hscan
  refine ⟨h', live_pages 0 pages, ?_, ⟨store, pages, hold', hm⟩, live_pages_sorted 0 pages,
    fun rid bs => ?_⟩
  · rw [heap_scan, hold.first, hnum]
    exact hscan
  · rw [mem_live_pages, ← hm]
    exact ⟨fun h => h.2, fun h => ⟨Nat.zero_le _, h⟩⟩

/-! ### Records that are too long -/

/-- The record is copied over the end of the page, unless no page can be allocated. -/
def Overruns (h : Heap) (r : Option (Heap × Option RID)) : Prop :=
  r = none ∨ MAX_PAGES ≤ h.file.wal.data.num_pages ∧ ∃ h', r = some (h', none)

theorem Represents.insert_new_outside (hrep : Represents h m) (hlen : 65532 ≤ rec.length)
    (hmax : rec.length < 65536) : Overruns h (heap_insert_new h rec) := by
  obtain ⟨store, pages, hold, hm⟩ := hrep
  rcases new_page_loan hold.pool hold.frames with ⟨f', i, hnew, hzero, -⟩ | ⟨hfull, hnew⟩
  · obtain ⟨page₀, hat⟩ : ∃ page, page_of f' i = some page := ⟨_, hzero⟩
    obtain ⟨page₁, hinit, hlay⟩ := Layout.init page₀
    rcases hlay.insert_outside hlen hmax with hnone | ⟨-, hsmall⟩
    · refine .inl ?_
      rw [heap_insert_new_eq hnew hat hinit, hnone]
      rfl
    · -- an empty page has room for a slot
      rw [slot_off_eq, page_size_eq] at hsmall
      exact absurd hsmall (by decide)
  · refine .inr ⟨hold.pool.count.symm ▸ hfull, h, ?_⟩
    rw [heap_insert_new, hnew]

theorem Represents.insert_outside (hrep : Represents h m) (hlen : 65532 ≤ rec.length)
    (hmax : rec.length < 65536) : Overruns h (heap_insert h rec) := by
  obtain ⟨store, pages, hold, hm⟩ := id hrep
  have hnum : h.file.wal.data.num_pages = store.length := hold.pool.count
  rw [heap_insert]
  by_cases hpos : store.length > 0
  · rw [if_pos (by rw [hold.first, hnum]; exact hpos), hnum]
    obtain ⟨page, ls, fe, hpage, hls, hlay⟩ := hold.page (Nat.sub_lt hpos one_pos)
    obtain ⟨f', i, hfetch, hat, hback, hchanged⟩ := hold.fetch hpage
    dsimp only
    rw [hfetch]
    dsimp only
    simp only [hat, bind_eq_bind, bind_some]
    rcases hlay.insert_outside hlen hmax with hnone | ⟨hfull, -⟩
    · rw [hnone]
      exact .inl rfl
    · -- the last page is full to the last bytes, so the next one is tried
      rw [hfull]
      have hnew := Represents.insert_new_outside ⟨store, pages, hback, hm⟩ hlen hmax
      refine hnew.imp id fun ⟨hroom, hfail⟩ => ⟨?_, hfail⟩
      exact hnum.symm ▸ (hback.pool.count ▸ hroom)
  · rw [if_neg (by rw [hold.first, hnum]; exact hpos)]
    exact hrep.insert_new_outside hlen hmax

end Calls

/-! ### Runs of heap calls -/

/-- A heap, and the records as its callers have stored them. -/
structure HeapRun where
  heap : Heap
  map : HeapMap

inductive HeapAct where
  | insert (rec : List UInt8)
  | delete (rid : RID)
  | overwrite (rid : RID) (rec : List UInt8)
  | get (rid : RID)

/-- `none` is an access outside a page. -/
def HeapRun.step (s : HeapRun) : HeapAct → Option HeapRun
  | .insert rec => (heap_insert s.heap rec).map fun r =>
      ⟨r.1, match r.2 with
        | some rid => s.map.put rid (some rec)
        | none => s.map⟩
  | .delete rid => (heap_delete s.heap rid).map fun r =>
      ⟨r.1, if r.2 then s.map.put rid none else s.map⟩
  | .overwrite rid rec => (heap_overwrite s.heap rid rec).map fun r =>
      ⟨r.1, if r.2 then s.map.put rid (some rec) else s.map⟩
  | .get rid => (heap_get s.heap rid).map fun r => ⟨r.1, s.map⟩

/-- A heap on an empty file, outside or inside a transaction on it. -/
def HeapRun.opened (w : Wal) (num_frames : Nat) (in_txn : Bool) : HeapRun :=
  let f := (PoolState.opened w [] num_frames).file
  { heap := heap_init (if in_txn then begin_write f else f) 0
    map := fun _ => none }

/-- What the callers of a heap rely on. -/
structure HeapOk (s : HeapRun) : Prop where
  get : ∀ rid, ∃ h', heap_get s.heap rid = some (h', s.map rid)
  scan : ∃ h' visited, heap_scan s.heap = some (h', some visited) ∧
    (visited.Pairwise fun a b => a.1.lt b.1) ∧ ∀ rid bs, (rid, bs) ∈ visited ↔ s.map rid = some bs
  insert : ∀ rec h' rid, rec.length < 65536 → heap_insert s.heap rec = some (h', some rid) →
    s.map rid = none

/-- A `uint16_t` holds the length of every record. -/
def lengths_fit (as : List HeapAct) : Prop := ∀ rec, .insert rec ∈ as → rec.length < 65536

/-- Before every call a page can be allocated. -/
def NoIoFailure (s : HeapRun) : List HeapAct → Prop
  | [] => True
  | a :: as => s.heap.file.wal.data.num_pages < MAX_PAGES ∧
      ∀ s', s.step a = some s' → NoIoFailure s' as

theorem PoolRefines.begin_write {s : PoolState} (h : PoolRefines s) :
    PoolRefines { s with file := MiniDb.begin_write s.file } :=
  ⟨⟨⟨h.plain.cache.congr rfl le_rfl fun _ _ _ _ _ => rfl, h.plain.file, h.plain.bound, .inr rfl⟩,
    h.plain.free⟩, h.count, h.view, h.pins⟩

theorem Represents.opened {w : Wal} {num_frames : Nat} (hframes : 1 ≤ num_frames) (in_txn : Bool) :
    Represents (HeapRun.opened w num_frames in_txn).heap (HeapRun.opened w num_frames in_txn).map := by
  have hpool : PoolRefines (PoolState.opened w [] num_frames) := .opened (Nat.zero_le _)
  have hne : (PoolState.opened w [] num_frames).file.bp.frames ≠ [] := by
    intro hnil
    have hlen := congrArg List.length hnil
    simp [PoolState.opened, bufpool_create] at hlen
    omega
  refine ⟨[], [], ⟨?_, ?_, rfl, rfl, by simp⟩, fun _ => rfl⟩
  · cases in_txn with
    | true => exact PoolRefines.begin_write hpool
    | false => exact hpool
  · cases in_txn <;> exact hne

variable {s : HeapRun}

theorem Represents.ok (h : Represents s.heap s.map) : HeapOk s where
  get rid := (h.get rid).imp fun _ hget => hget.1
  scan := by
    obtain ⟨h', visited, hscan, -, hsorted, hmem⟩ := h.scan
    exact ⟨h', visited, hscan, hsorted, hmem⟩
  insert rec h' rid hmax hins := by
    rcases lt_or_ge rec.length 65532 with hlen | hlen
    · obtain ⟨r, hr, hspec⟩ : ∃ r, heap_insert s.heap rec = some r ∧ Inserts s.map rec r :=
        h.insert (by omega)
      obtain rfl := mem_unique hr hins
      exact hspec.1
    · -- a record that is too long gets no RID at all
      rcases h.insert_outside hlen hmax with hnone | ⟨-, h'', hfail⟩
      · exact absurd (hnone.symm.trans hins) nofun
      · exact absurd (hfail.symm.trans hins) nofun

/-- One call keeps the heap and the map together. -/
theorem Represents.step (h : Represents s.heap s.map) (a : HeapAct)
    (hlen : ∀ rec, a = .insert rec → rec.length < 65532) :
    ∃ s', s.step a = some s' ∧ Represents s'.heap s'.map := by
  cases a with
  | insert rec =>
    have hrec := hlen rec rfl
    obtain ⟨⟨h', r⟩, hins, hspec⟩ : ∃ r, heap_insert s.heap rec = some r ∧ Inserts s.map rec r :=
      h.insert (by omega)
    refine ⟨_, by rw [HeapRun.step, hins]; rfl, ?_⟩
    cases r with
    | none => exact hspec
    | some rid => exact hspec.2
  | delete rid =>
    obtain ⟨h', ok, hcall, -, hrep⟩ := h.delete rid
    exact ⟨_, by rw [HeapRun.step, hcall]; rfl, hrep⟩
  | overwrite rid rec =>
    obtain ⟨h', ok, hcall, -, hrep⟩ := h.overwrite rid rec
    exact ⟨_, by rw [HeapRun.step, hcall]; rfl, hrep⟩
  | get rid =>
    obtain ⟨h', hcall, hrep⟩ := h.get rid
    exact ⟨_, by rw [HeapRun.step, hcall]; rfl, hrep⟩

/-- A run of calls, up to the first record that is too long. -/
theorem Represents.run (h : Represents s.heap s.map) {as : List HeapAct}
    (hfit : lengths_fit as) (hio : NoIoFailure s as) :
    (∃ s', Framework.run HeapRun.step s as = some s' ∧ Represents s'.heap s'.map ∧
      ∀ rec, .insert rec ∈ as → rec.length < 65532) ∨
    Framework.run HeapRun.step s as = none ∧ ∃ rec, .insert rec ∈ as ∧ 65532 ≤ rec.length := by
  induction as generalizing s with
  | nil => exact .inl ⟨s, rfl, h, fun _ hrec => absurd hrec not_mem_nil⟩
  | cons a as ih =>
    by_cases hshort : ∀ rec, a = .insert rec → rec.length < 65532
    · obtain ⟨s₁, hs, h₁⟩ := h.step a hshort
      simp only [Framework.run, hs, bind_some]
      have hfit₁ : lengths_fit as := fun rec hrec => hfit rec (mem_cons_of_mem _ hrec)
      rcases ih h₁ hfit₁ (hio.2 s₁ hs) with ⟨s', hrun, hrep, hall⟩ | ⟨hrun, rec, hrec, hlong⟩
      · refine .inl ⟨s', hrun, hrep, fun rec hrec => ?_⟩
        rcases mem_cons.1 hrec with heq | hrec
        · exact hshort rec heq.symm
        · exact hall rec hrec
      · exact .inr ⟨hrun, rec, mem_cons_of_mem _ hrec, hlong⟩
    · obtain ⟨rec, rfl, hlong⟩ : ∃ rec, a = .insert rec ∧ 65532 ≤ rec.length := by
        by_contra hnone
        exact hshort fun rec ha => not_le.1 fun hle => hnone ⟨rec, ha, hle⟩
      have hnone : heap_insert s.heap rec = none :=
        (h.insert_outside hlong (hfit rec mem_cons_self)).resolve_right
          fun hfull => absurd hio.1 (not_lt.2 hfull.1)
      refine .inr ⟨?_, rec, mem_cons_self, hlong⟩
      simp only [Framework.run, HeapRun.step, hnone, map_none, bind_none]

/-- The heap is a map from RIDs to records in the runs without a record of 65532 bytes or more,
and in no others: `len + SLOT_SIZE` wraps around and the record is copied out of the page. -/
theorem heap_refines_map_iff_no_wrap (w : Wal) {num_frames : Nat} (hframes : 1 ≤ num_frames)
    (in_txn : Bool) {as : List HeapAct} (hfit : lengths_fit as)
    (hio : NoIoFailure (HeapRun.opened w num_frames in_txn) as) :
    (∃ s, Framework.run HeapRun.step (HeapRun.opened w num_frames in_txn) as = some s ∧ HeapOk s) ↔
      ∀ rec, .insert rec ∈ as → rec.length < 65532 := by
  rcases (Represents.opened hframes in_txn).run hfit hio with
    ⟨s, hrun, hrep, hshort⟩ | ⟨hrun, rec, hrec, hlong⟩
  · exact iff_of_true ⟨s, hrun, hrep.ok⟩ hshort
  · refine iff_of_false ?_ fun hall => absurd (hall rec hrec) (not_lt.2 hlong)
    rintro ⟨s, hs, -⟩
    exact absurd (hrun.symm.trans hs) nofun

instance NoIoFailure.decidable : ∀ s as, Decidable (NoIoFailure s as)
  | _, [] => isTrue trivial
  | s, a :: as =>
    match h : s.step a with
    | none => decidable_of_iff (s.heap.file.wal.data.num_pages < MAX_PAGES) (by simp [NoIoFailure, h])
    | some s' =>
      have := NoIoFailure.decidable s' as
      decidable_of_iff (s.heap.file.wal.data.num_pages < MAX_PAGES ∧ NoIoFailure s' as)
        (by simp [NoIoFailure, h])

/-- Three records; the first is deleted, the second written over. -/
def reused_slots : List HeapAct :=
  [.insert [1, 2, 3], .insert [4, 5], .insert [6], .delete ⟨0, 0⟩, .overwrite ⟨0, 1⟩ [7, 8],
    .insert [9, 9, 9]]

/-- Through a pool of one frame. -/
theorem heap_refines_map_reused_slots :
    ∃ s, Framework.run HeapRun.step (HeapRun.opened (wal_fresh ⟨[], []⟩) 1 true) reused_slots = some s ∧
      HeapOk s := by
  have hio : NoIoFailure (HeapRun.opened (wal_fresh ⟨[], []⟩) 1 true) reused_slots := by decide +kernel
  have hshort : ∀ rec, .insert rec ∈ reused_slots → rec.length < 65532 := by simp [reused_slots]
  exact (heap_refines_map_iff_no_wrap _ le_rfl true
    (fun rec hrec => (hshort rec hrec).trans (by decide)) hio).2 hshort

/-- The shortest record that wraps `need` around, on an empty heap. -/
theorem heap_insert_overruns_page :
    ¬ ∀ (w : Wal) (num_frames : Nat) (in_txn : Bool) (as : List HeapAct), 1 ≤ num_frames →
      lengths_fit as → NoIoFailure (HeapRun.opened w num_frames in_txn) as →
      ∃ s, Framework.run HeapRun.step (HeapRun.opened w num_frames in_txn) as = some s ∧
        HeapOk s := by
  intro hall
  have hlen : (List.replicate 65532 (0 : UInt8)).length = 65532 := length_replicate
  generalize List.replicate 65532 (0 : UInt8) = long at hlen
  have hfit : lengths_fit [.insert long] := by
    rintro rec (_ | ⟨_, ⟨⟩⟩)
    omega
  have hio : NoIoFailure (HeapRun.opened (wal_fresh ⟨[], []⟩) 1 false) [.insert long] :=
    ⟨by decide, fun _ _ => trivial⟩
  obtain ⟨s, hrun, -⟩ := hall _ 1 false _ le_rfl hfit hio
  rcases (Represents.opened le_rfl false).run hfit hio with ⟨s', -, -, hshort⟩ | ⟨hnone, -⟩
  · exact absurd (hshort long mem_cons_self) (by omega)
  · exact absurd (hnone.symm.trans hrun) nofun

end MiniDb.HeapFile
