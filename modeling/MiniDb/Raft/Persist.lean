import MiniDb.Framework.Bytes
import MiniDb.Raft.Node

/-! # The saved state of a node

  `raft_save` opens the file with `O_TRUNC` and writes the persistent fields
  one after the other; `raft_load` reads them back and refuses a file that
  ends too early.  A save that is killed leaves the file as it was before the
  open, or a part of the new bytes.  A proper part is refused, so the only
  safe places to die are before the open and after the last write. -/

namespace MiniDb

open Framework List Option

/-! ### Fields -/

/-- An `int64_t`. -/
def Fits64 (v : Int) : Prop := -2 ^ 63 ≤ v ∧ v < 2 ^ 63

instance (v : Int) : Decidable (Fits64 v) := inferInstanceAs (Decidable (_ ∧ _))

/-- Two's complement. -/
def bits64 (v : Int) : Nat := (v % 2 ^ 64).toNat

def signed64 (n : Nat) : Int := if n < 2 ^ 63 then n else (n : Int) - 2 ^ 64

theorem bits64_lt (v : Int) : bits64 v < 256 ^ 8 := by
  unfold bits64
  omega

theorem signed64_bits64 {v : Int} (h : Fits64 v) : signed64 (bits64 v) = v := by
  unfold Fits64 at h
  unfold signed64 bits64
  split <;> omega

/-- `voted_for` as an `int`, with -1 for nobody. -/
def vote_bits (voted_for : Option Nat) : Nat := voted_for.getD (2 ^ 32 - 1)

def vote_of (n : Nat) : Option Nat := if n = 2 ^ 32 - 1 then none else some n

theorem vote_of_bits {voted_for : Option Nat} (h : ∀ i ∈ voted_for, i < 2 ^ 31) :
    vote_bits voted_for < 256 ^ 4 ∧ vote_of (vote_bits voted_for) = voted_for := by
  cases voted_for with
  | none => exact ⟨by decide, rfl⟩
  | some i =>
    have hi := h i rfl
    unfold vote_bits vote_of
    simp only [getD_some]
    refine ⟨by omega, if_neg (by omega)⟩

def flag_bits (b : Bool) : Nat := if b then 1 else 0

theorem flag_bits_ne (b : Bool) : decide (flag_bits b ≠ 0) = b := by
  cases b <;> rfl

def ENTRY_SIZE : Nat := 24

/-- A `RaftEntry` in memory. -/
def entry_bytes (e : RaftEntry) : List UInt8 :=
  le_bytes 8 e.term ++ le_bytes 8 (bits64 e.command) ++ le_bytes 4 (flag_bits e.is_config) ++
    le_bytes 4 (flag_bits e.is_noop)

/-- The field of `w` bytes at an offset. -/
def field (bs : List UInt8) (offset w : Nat) : Nat := le_nat ((bs.drop offset).take w)

def entry_of (bs : List UInt8) : RaftEntry where
  term := field bs 0 8
  command := signed64 (field bs 8 8)
  is_config := decide (field bs 16 4 ≠ 0)
  is_noop := decide (field bs 20 4 ≠ 0)

theorem field_append {xs : List UInt8} {n : Nat} (hn : xs.length = n) (offset w : Nat)
    (ys : List UInt8) :
    field (xs ++ ys) (n + offset) w = field ys offset w := by
  unfold field
  rw [← hn, drop_append, drop_eq_nil_of_le (Nat.le_add_right ..), nil_append,
    Nat.add_sub_cancel_left]

theorem field_le_bytes {w n : Nat} (h : n < 256 ^ w) (rest : List UInt8) :
    field (le_bytes w n ++ rest) 0 w = n := by
  unfold field
  rw [drop_zero, take_left' (le_bytes_length w n), le_nat_le_bytes h]

/-- The values of an entry are those of its C types. -/
def RaftEntry.Storable (e : RaftEntry) : Prop := e.term < 2 ^ 64 ∧ Fits64 e.command

instance (e : RaftEntry) : Decidable e.Storable := inferInstanceAs (Decidable (_ ∧ _))

theorem entry_bytes_length (e : RaftEntry) : (entry_bytes e).length = ENTRY_SIZE := by
  simp [entry_bytes, ENTRY_SIZE]

theorem entry_of_bytes {e : RaftEntry} (h : e.Storable) : entry_of (entry_bytes e) = e := by
  have hflag : ∀ b, flag_bits b < 256 ^ 4 := by decide
  have hterm : field (entry_bytes e) 0 8 = e.term := by
    unfold entry_bytes
    simp only [append_assoc]
    exact field_le_bytes h.1 _
  have hcommand : field (entry_bytes e) 8 8 = bits64 e.command := by
    unfold entry_bytes
    simp only [append_assoc]
    exact (field_append (le_bytes_length 8 _) 0 8 _).trans (field_le_bytes (bits64_lt _) _)
  have hconfig : field (entry_bytes e) 16 4 = flag_bits e.is_config := by
    unfold entry_bytes
    rw [append_assoc]
    exact (field_append (by simp) 0 4 _).trans (field_le_bytes (hflag _) _)
  have hnoop : field (entry_bytes e) 20 4 = flag_bits e.is_noop := by
    unfold entry_bytes
    have hlast := field_le_bytes (hflag e.is_noop) []
    rw [append_nil] at hlast
    exact (field_append (by simp) 0 4 _).trans hlast
  unfold entry_of
  rw [hterm, hcommand, hconfig, hnoop, signed64_bits64 h.2, flag_bits_ne, flag_bits_ne]

/-- The entries in a block of memory. -/
def entries_of : Nat → List UInt8 → List RaftEntry
  | 0, _ => []
  | n + 1, bs => entry_of (bs.take ENTRY_SIZE) :: entries_of n (bs.drop ENTRY_SIZE)

def log_bytes (log : List RaftEntry) : List UInt8 := log.flatMap entry_bytes

theorem log_bytes_length (log : List RaftEntry) : (log_bytes log).length = log.length * ENTRY_SIZE := by
  induction log with
  | nil => rfl
  | cons e log ih =>
    rw [log_bytes, flatMap_cons, length_append, entry_bytes_length, length_cons,
      Nat.add_mul, Nat.one_mul, Nat.add_comm]
    exact congrArg (· + ENTRY_SIZE) ih

variable {log : List RaftEntry}

theorem entries_of_log_bytes (h : ∀ e ∈ log, e.Storable) (rest : List UInt8) :
    entries_of log.length (log_bytes log ++ rest) = log := by
  induction log with
  | nil => rfl
  | cons e log ih =>
    show entry_of ((entry_bytes e ++ log_bytes log ++ rest).take ENTRY_SIZE) ::
      entries_of log.length ((entry_bytes e ++ log_bytes log ++ rest).drop ENTRY_SIZE) = e :: log
    rw [append_assoc, take_left' (entry_bytes_length e), drop_left' (entry_bytes_length e),
      entry_of_bytes (h e mem_cons_self), ih fun x hx => h x (mem_cons_of_mem e hx)]

/-! ### Saving and loading -/

/-- The buffers that `raft_save` hands to `wr_all`, in order. -/
def save_buffers (r : Raft) : List (List UInt8) :=
  [le_bytes 8 r.current_term, le_bytes 4 (vote_bits r.voted_for), le_bytes 4 r.member_mask,
    le_bytes 4 r.base_member_mask, le_bytes 8 r.log_base, le_bytes 8 (bits64 r.snapshot_value),
    le_bytes 8 r.log.length, log_bytes r.log]

/-- The file of a complete save. -/
def save_bytes (r : Raft) : List UInt8 := (save_buffers r).flatten

/-- `rd_all` of an integer. -/
def rd_nat (w : Nat) (bs : List UInt8) : Option (Nat × List UInt8) :=
  (read_exact w bs).map fun x => (le_nat x.1, x.2)

/-- The node after a load of these values. -/
def Raft.restored (r : Raft) (term : Nat) (voted : Option Nat) (mask basemask base : Nat) (snap : Int)
    (marker : RaftEntry) (entries : List RaftEntry) : Raft :=
  { r with
    current_term := term
    voted_for := voted
    member_mask := mask
    base_member_mask := basemask
    pending_config_index := none
    log_base := base
    snapshot_value := snap
    marker := marker
    entries := entries
    commit_index := base
    last_applied := base
    apply_ctx := if 0 < base then r.apply_ctx ++ [.snap_install base snap] else r.apply_ctx }

/-- The fields of a file before its entries. -/
structure LoadHeader where
  term : Nat
  voted : Nat
  mask : Nat
  basemask : Nat
  base : Nat
  snap : Nat
  len : Nat

/-- The header and the bytes behind it. -/
def load_header (bs : List UInt8) : Option (LoadHeader × List UInt8) :=
  (rd_nat 8 bs).bind fun (term, bs) =>
  (rd_nat 4 bs).bind fun (voted, bs) =>
  (rd_nat 4 bs).bind fun (mask, bs) =>
  (rd_nat 4 bs).bind fun (basemask, bs) =>
  (rd_nat 8 bs).bind fun (base, bs) =>
  (rd_nat 8 bs).bind fun (snap, bs) =>
  (rd_nat 8 bs).bind fun (len, bs) =>
  -- `len < 1` for the signed value
  if len = 0 ∨ 2 ^ 63 ≤ len then none
  else some (⟨term, voted, mask, basemask, base, snap, len⟩, bs)

/-- What a load leaves: the node's fields, the bytes of its log array up to the
    length of the log, `none` if the array was freed, and whether it returned 0. -/
structure Load where
  node : Raft
  log : Option (List UInt8)
  ok : Bool

/-- The entries are read into the log itself, an array of `log_cap` entries.
    `grants` are the sizes for which `realloc` finds room; for size 0 it frees
    the array and returns NULL.  `none` stands for a file that is not there. -/
def raft_load (grants : Nat → Bool) (log_cap : Nat) (r : Raft) (file : Option (List UInt8)) : Load :=
  let log := log_bytes r.log
  match file.bind load_header with
  | none => ⟨r, some log, false⟩
  | some (h, bs) =>
      -- a product of `size_t`
      let size := h.len * ENTRY_SIZE % 2 ^ 64
      if log_cap < h.len ∧ size = 0 then ⟨r, none, false⟩
      else if log_cap < h.len ∧ grants size = false then ⟨r, some log, false⟩
      else
        let kept := if log_cap < h.len then log.take size else log
        let got := bs.take size
        let array := got ++ kept.drop got.length
        if bs.length < size then ⟨r, some (array.take log.length), false⟩
        else
          ⟨r.restored h.term (vote_of h.voted) h.mask h.basemask h.base (signed64 h.snap)
            (entry_of (array.take ENTRY_SIZE)) (entries_of (h.len - 1) (array.drop ENTRY_SIZE)),
            some (array.take (h.len * ENTRY_SIZE)), true⟩

/-- What a load brings back of a node. -/
def raft_reload (r₀ r : Raft) : Raft :=
  r₀.restored r.current_term r.voted_for r.member_mask r.base_member_mask r.log_base r.snapshot_value
    r.marker r.entries

/-- The values of a node's persistent fields are those of their C types, and the
    size of its log is a `size_t`. -/
structure Storable (r : Raft) : Prop where
  term : r.current_term < 2 ^ 64
  vote : ∀ i ∈ r.voted_for, i < 2 ^ 31
  mask : r.member_mask < 2 ^ 32
  base_mask : r.base_member_mask < 2 ^ 32
  base : r.log_base < 2 ^ 63
  snap : Fits64 r.snapshot_value
  len : r.log.length * ENTRY_SIZE < 2 ^ 64
  log : ∀ e ∈ r.log, e.Storable

instance (r : Raft) : Decidable (Storable r) :=
  decidable_of_iff (r.current_term < 2 ^ 64 ∧ (∀ i ∈ r.voted_for, i < 2 ^ 31) ∧
    r.member_mask < 2 ^ 32 ∧ r.base_member_mask < 2 ^ 32 ∧ r.log_base < 2 ^ 63 ∧
    Fits64 r.snapshot_value ∧ r.log.length * ENTRY_SIZE < 2 ^ 64 ∧ ∀ e ∈ r.log, e.Storable)
    ⟨fun h => ⟨h.1, h.2.1, h.2.2.1, h.2.2.2.1, h.2.2.2.2.1, h.2.2.2.2.2.1, h.2.2.2.2.2.2.1,
      h.2.2.2.2.2.2.2⟩, fun h => ⟨h.term, h.vote, h.mask, h.base_mask, h.base, h.snap, h.len, h.log⟩⟩

/-- One field of a file that may end anywhere. -/
theorem rd_nat_part {β : Type} {w n : Nat} (hn : n < 256 ^ w) {part rest : List UInt8}
    (hpart : part <+: le_bytes w n ++ rest) (f : Nat × List UInt8 → Option β) :
    ((rd_nat w part).bind f = none ∧ part.length < w) ∨
      ∃ part', part = le_bytes w n ++ part' ∧ part' <+: rest ∧ (rd_nat w part).bind f = f (n, part') := by
  by_cases hlen : part.length < w
  · left
    unfold rd_nat
    rw [read_exact_short hlen]
    exact ⟨rfl, hlen⟩
  · right
    have hfield : le_bytes w n <+: part :=
      prefix_of_prefix_length_le (prefix_append _ _) hpart
        (by rw [le_bytes_length]; exact not_lt.mp hlen)
    obtain ⟨part', rfl⟩ := hfield
    refine ⟨part', rfl, (prefix_append_right_inj _).mp hpart, ?_⟩
    unfold rd_nat
    rw [read_exact_append (le_bytes_length w n), map_some, bind_some, le_nat_le_bytes hn]

variable {r : Raft} {cs ds : List SysCall}

/-- The header of a part of a saved file. -/
theorem load_header_part (h : Storable r) {part : List UInt8} (hpart : part <+: save_bytes r) :
    (load_header part = none ∧ part ≠ save_bytes r) ∨
      ∃ rest, rest <+: log_bytes r.log ∧ (part = save_bytes r ↔ rest = log_bytes r.log) ∧
        load_header part = some (⟨r.current_term, vote_bits r.voted_for, r.member_mask,
          r.base_member_mask, r.log_base, bits64 r.snapshot_value, r.log.length⟩, rest) := by
  have hvote := (vote_of_bits h.vote).1
  have hbase : r.log_base < 256 ^ 8 := Nat.lt_trans h.base (by decide)
  have hsize := h.len
  unfold ENTRY_SIZE at hsize
  have hlen : r.log.length < 256 ^ 8 := by omega
  have hfile : save_bytes r = le_bytes 8 r.current_term ++ (le_bytes 4 (vote_bits r.voted_for) ++
      (le_bytes 4 r.member_mask ++ (le_bytes 4 r.base_member_mask ++ (le_bytes 8 r.log_base ++
        (le_bytes 8 (bits64 r.snapshot_value) ++ (le_bytes 8 r.log.length ++ log_bytes r.log)))))) := by
    simp [save_bytes, save_buffers]
  rw [hfile] at hpart ⊢
  -- A field that is cut off ends the load; the file is then shorter than the whole.
  have hcut : ∀ {w n : Nat} {part rest : List UInt8}, part.length < w → part ≠ le_bytes w n ++ rest := by
    rintro w n part rest hlt rfl
    rw [length_append, le_bytes_length] at hlt
    omega
  unfold load_header
  rcases rd_nat_part h.term hpart _ with ⟨hnone, hlt⟩ | ⟨part, rfl, hpart, hf⟩
  · exact .inl ⟨hnone, hcut hlt⟩
  rw [hf, ne_eq, append_cancel_left_eq]
  dsimp only
  rcases rd_nat_part hvote hpart _ with ⟨hnone, hlt⟩ | ⟨part, rfl, hpart, hf⟩
  · exact .inl ⟨hnone, hcut hlt⟩
  rw [hf, append_cancel_left_eq]
  dsimp only
  rcases rd_nat_part h.mask hpart _ with ⟨hnone, hlt⟩ | ⟨part, rfl, hpart, hf⟩
  · exact .inl ⟨hnone, hcut hlt⟩
  rw [hf, append_cancel_left_eq]
  dsimp only
  rcases rd_nat_part h.base_mask hpart _ with ⟨hnone, hlt⟩ | ⟨part, rfl, hpart, hf⟩
  · exact .inl ⟨hnone, hcut hlt⟩
  rw [hf, append_cancel_left_eq]
  dsimp only
  rcases rd_nat_part hbase hpart _ with ⟨hnone, hlt⟩ | ⟨part, rfl, hpart, hf⟩
  · exact .inl ⟨hnone, hcut hlt⟩
  rw [hf, append_cancel_left_eq]
  dsimp only
  rcases rd_nat_part (bits64_lt _) hpart _ with ⟨hnone, hlt⟩ | ⟨part, rfl, hpart, hf⟩
  · exact .inl ⟨hnone, hcut hlt⟩
  rw [hf, append_cancel_left_eq]
  dsimp only
  rcases rd_nat_part hlen hpart _ with ⟨hnone, hlt⟩ | ⟨part, rfl, hpart, hf⟩
  · exact .inl ⟨hnone, hcut hlt⟩
  have hcount : ¬ (r.log.length = 0 ∨ 2 ^ 63 ≤ r.log.length) := by
    have hpos : 0 < r.log.length := Nat.succ_pos _
    omega
  rw [hf, append_cancel_left_eq]
  dsimp only
  rw [if_neg hcount]
  exact .inr ⟨part, hpart, Iff.rfl, rfl⟩

/-- A part of a saved file is refused unless it is the whole, which is loaded if
    there is memory for it. -/
theorem raft_load_part (grants : Nat → Bool) (log_cap : Nat) (h : Storable r)
    (hmem : log_cap < r.log.length → grants (r.log.length * ENTRY_SIZE) = true) (r₀ : Raft)
    {part : List UInt8} (hpart : part <+: save_bytes r) :
    ((raft_load grants log_cap r₀ (some part)).ok = false ∧ part ≠ save_bytes r) ∨
      ((raft_load grants log_cap r₀ (some part)).ok = true ∧
        (raft_load grants log_cap r₀ (some part)).node = raft_reload r₀ r ∧ part = save_bytes r) := by
  unfold raft_load
  rw [bind_some]
  rcases load_header_part h hpart with ⟨hnone, hne⟩ | ⟨rest, hrest, hwhole, hsome⟩
  · rw [hnone]
    exact .inl ⟨rfl, hne⟩
  have hpos : r.log.length * ENTRY_SIZE ≠ 0 := Nat.ne_of_gt (Nat.mul_pos (Nat.succ_pos _) (by decide))
  have hgrant : ¬ (log_cap < r.log.length ∧ grants (r.log.length * ENTRY_SIZE) = false) :=
    fun hno => by simp [hmem hno.1] at hno
  rw [hsome, hwhole, ne_eq, hwhole]
  dsimp only
  rw [Nat.mod_eq_of_lt h.len, if_neg fun hno => hpos hno.2, if_neg hgrant, ← log_bytes_length]
  by_cases hshort : rest.length < (log_bytes r.log).length
  · rw [if_pos hshort]
    exact .inl ⟨rfl, fun heq => Nat.ne_of_lt hshort (congrArg _ heq)⟩
  · obtain rfl := hrest.eq_of_length_le (not_lt.mp hshort)
    rw [if_neg hshort, take_length]
    refine .inr ⟨rfl, ?_, rfl⟩
    generalize drop _ _ = kept
    have hlog : entry_of (take ENTRY_SIZE (log_bytes r.log ++ kept)) ::
        entries_of (r.log.length - 1) (drop ENTRY_SIZE (log_bytes r.log ++ kept)) = r.marker :: r.entries :=
      entries_of_log_bytes h.log kept
    obtain ⟨hmarker, hentries⟩ := List.cons.inj hlog
    rw [hmarker, hentries, (vote_of_bits h.vote).2, signed64_bits64 h.snap]
    rfl

theorem raft_load_saved (grants : Nat → Bool) (log_cap : Nat) (h : Storable r)
    (hmem : log_cap < r.log.length → grants (r.log.length * ENTRY_SIZE) = true) (r₀ : Raft) :
    (raft_load grants log_cap r₀ (some (save_bytes r))).ok = true ∧
      (raft_load grants log_cap r₀ (some (save_bytes r))).node = raft_reload r₀ r := by
  rcases raft_load_part grants log_cap h hmem r₀ prefix_rfl with ⟨-, hne⟩ | ⟨hok, hnode, -⟩
  · exact absurd rfl hne
  · exact ⟨hok, hnode⟩

/-! ### A save that is killed -/

inductive SysCall where
  | open_trunc
  | write (data : List UInt8)
  | fsync
  | close

/-- The file after a call; `none` while there is no file. -/
def SysCall.apply (file : Option (List UInt8)) : SysCall → Option (List UInt8)
  | .open_trunc => some []
  | .write data => file.map (· ++ data)
  | .fsync => file
  | .close => file

/-- The calls of `wr_all` for a buffer, which the kernel may take in pieces. -/
inductive WrAll : List UInt8 → List SysCall → Prop where
  | done : WrAll [] []
  | piece (data rest : List UInt8) (calls : List SysCall) (hne : data ≠ []) (h : WrAll rest calls) :
      WrAll (data ++ rest) (.write data :: calls)

/-- The calls of a `raft_save` that is not killed. -/
inductive Saves (r : Raft) : List SysCall → Prop where
  | intro (writes : List (List SysCall)) (h : List.Forall₂ WrAll (save_buffers r) writes) :
      Saves r (.open_trunc :: (writes.flatten ++ [.fsync, .close]))

def SysCall.data : SysCall → List UInt8
  | .write data => data
  | _ => []

/-- The bytes that the calls write. -/
def written (calls : List SysCall) : List UInt8 := calls.flatMap SysCall.data

/-- The node has the persistent state of `r`. -/
structure SamePersistent (q r : Raft) : Prop where
  current_term : q.current_term = r.current_term
  voted_for : q.voted_for = r.voted_for
  member_mask : q.member_mask = r.member_mask
  base_member_mask : q.base_member_mask = r.base_member_mask
  log_base : q.log_base = r.log_base
  snapshot_value : q.snapshot_value = r.snapshot_value
  log : q.log = r.log

theorem reload_same (r₀ r : Raft) : SamePersistent (raft_reload r₀ r) r :=
  ⟨rfl, rfl, rfl, rfl, rfl, rfl, rfl⟩

theorem written_append (cs ds : List SysCall) : written (cs ++ ds) = written cs ++ written ds :=
  flatMap_append

/-- The calls only append. -/
def Appends (calls : List SysCall) : Prop := ∀ c ∈ calls, c ≠ .open_trunc

theorem Appends.append (hc : Appends cs) (hd : Appends ds) : Appends (cs ++ ds) :=
  fun c h => (mem_append.mp h).elim (hc c) (hd c)

variable {calls : List SysCall}

theorem Appends.file (h : Appends calls) (bs : List UInt8) :
    calls.foldl SysCall.apply (some bs) = some (bs ++ written calls) := by
  induction calls generalizing bs with
  | nil => exact congrArg some (append_nil bs).symm
  | cons c calls ih =>
    have hrest := ih fun d hd => h d (mem_cons_of_mem c hd)
    cases c with
    | open_trunc => exact absurd rfl (h _ mem_cons_self)
    | write data =>
      show calls.foldl SysCall.apply (some (bs ++ data)) = some (bs ++ (data ++ written calls))
      rw [hrest, append_assoc]
    | fsync => exact hrest bs
    | close => exact hrest bs

theorem WrAll.spec {buf : List UInt8} (h : WrAll buf calls) :
    Appends calls ∧ written calls = buf := by
  induction h with
  | done => exact ⟨nofun, rfl⟩
  | piece data rest calls _ _ ih =>
    refine ⟨fun c hc => ?_, congrArg (data ++ ·) ih.2⟩
    rcases mem_cons.mp hc with rfl | hc
    · exact nofun
    · exact ih.1 c hc

theorem wr_buffers_spec {bufs : List (List UInt8)} {writes : List (List SysCall)}
    (h : List.Forall₂ WrAll bufs writes) :
    Appends writes.flatten ∧ written writes.flatten = bufs.flatten := by
  induction h with
  | nil => exact ⟨nofun, rfl⟩
  | cons hb _ ih =>
    rw [flatten_cons, flatten_cons, written_append, hb.spec.2, ih.2]
    exact ⟨hb.spec.1.append ih.1, rfl⟩

/-- After the truncation the calls append the new bytes. -/
theorem Saves.spec (h : Saves r calls) :
    ∃ rest, calls = .open_trunc :: rest ∧ Appends rest ∧ written rest = save_bytes r := by
  obtain ⟨writes, h⟩ := h
  obtain ⟨happ, hwritten⟩ := wr_buffers_spec h
  refine ⟨_, rfl, happ.append ?_, ?_⟩
  · intro c hc
    rcases mem_pair.mp hc with rfl | rfl
    · exact nofun
    · exact nofun
  · rw [written_append, hwritten]
    exact append_nil _

theorem written_prefix (h : cs <+: ds) : written cs <+: written ds := by
  obtain ⟨tail, rfl⟩ := h
  rw [written_append]
  exact prefix_append _ _

/-- A save that is killed leaves a file that loads as the old or the new state,
    exactly if it was killed before it began or after its last write. -/
theorem raft_save_atomic_iff {old new : Raft} (hold : Storable old) (hnew : Storable new)
    (log_cap : Nat) (r₀ : Raft)
    {calls cut : List SysCall} (hcalls : Saves new calls) (hcut : cut <+: calls) :
    let load := raft_load (fun _ => true) log_cap r₀ (cut.foldl SysCall.apply (some (save_bytes old)))
    (load.ok = true ∧ (SamePersistent load.node old ∨ SamePersistent load.node new)) ↔
      cut = [] ∨ written cut = save_bytes new := by
  intro load
  obtain ⟨rest, rfl, happ, hwritten⟩ := hcalls.spec
  cases cut with
  | nil =>
    obtain ⟨hok, hnode⟩ := raft_load_saved (fun _ => true) log_cap hold (fun _ => rfl) r₀
    exact iff_of_true ⟨hok, .inl (hnode ▸ reload_same r₀ old)⟩ (.inl rfl)
  | cons c cut =>
    -- The first call was the open, so the file is a part of the new bytes.
    obtain ⟨rfl, hrest⟩ := cons_prefix_cons.mp hcut
    have hpart : written cut <+: save_bytes new := hwritten ▸ written_prefix hrest
    have hfile : (SysCall.open_trunc :: cut).foldl SysCall.apply (some (save_bytes old)) =
        some (written cut) :=
      Appends.file (fun c hc => happ c (hrest.subset hc)) []
    have hload : load = raft_load (fun _ => true) log_cap r₀ (some (written cut)) :=
      congrArg (raft_load _ log_cap r₀) hfile
    rw [hload]
    rcases raft_load_part (fun _ => true) log_cap hnew (fun _ => rfl) r₀ hpart with
      ⟨hfail, hne⟩ | ⟨hok, hnode, heq⟩
    · rw [hfail]
      exact iff_of_false (fun h => by cases h.1) fun h => hne (h.resolve_left nofun)
    · exact iff_of_true ⟨hok, .inr (hnode ▸ reload_same r₀ new)⟩ (.inr heq)

/-- A node that has voted for itself in term 1. -/
def voted_once : Raft := { raft_start 0 3 1 1 with current_term := 1, voted_for := some 0 }

/-- Each buffer in one piece. -/
def plain_save (r : Raft) : List SysCall :=
  .open_trunc :: (((save_buffers r).map fun buf => [.write buf]).flatten ++ [.fsync, .close])

theorem plain_save_saves (r : Raft) : Saves r (plain_save r) := by
  refine .intro _ (forall₂_map_right_iff.mpr (forall₂_same.mpr fun buf hbuf => ?_))
  have hpos : ∀ buf ∈ save_buffers r, 0 < buf.length := by
    simp [save_buffers, log_bytes_length, ENTRY_SIZE, Raft.log]
  have h := WrAll.piece buf [] [] (ne_nil_of_length_pos (hpos buf hbuf)) .done
  rwa [append_nil] at h

/-- The vote is saved before anything else happens. -/
theorem raft_save_atomic_voted_once :
    let load := raft_load (fun _ => true) 16 (raft_start 0 3 1 1)
      ((plain_save voted_once).foldl SysCall.apply (some (save_bytes (raft_start 0 3 1 1))))
    load.ok = true ∧
      (SamePersistent load.node (raft_start 0 3 1 1) ∨ SamePersistent load.node voted_once) := by
  refine (raft_save_atomic_iff (by decide) (by decide) 16 _ (plain_save_saves voted_once)
    prefix_rfl).mpr (.inr ?_)
  obtain ⟨rest, hcalls, -, hwritten⟩ := (plain_save_saves voted_once).spec
  rw [hcalls]
  exact hwritten

/-- The same node when it stands again in term 2. -/
def stands_again : Raft := { voted_once with current_term := 2 }

/-- Killed between the open that truncates and the first write, the node has no
    state that can be loaded: its vote is forgotten. -/
theorem raft_save_not_atomic :
    Storable voted_once ∧ Saves stands_again (plain_save stands_again) ∧
      [SysCall.open_trunc] <+: plain_save stands_again ∧
      ∀ grants log_cap r₀, (raft_load grants log_cap r₀
        ([SysCall.open_trunc].foldl SysCall.apply (some (save_bytes voted_once)))).ok = false :=
  ⟨by decide, plain_save_saves _, prefix_append _ _, fun _ _ _ => rfl⟩

/-! ### A load that fails -/

theorem overlay_eq_iff {got log : List UInt8} :
    (got ++ log.drop got.length).take log.length = log ↔ got.take log.length <+: log := by
  constructor
  · intro h
    refine ⟨(log.drop got.length).take (log.length - got.length), ?_⟩
    rw [← take_append, h]
  · rintro ⟨rest, hrest⟩
    rcases Nat.le_total got.length log.length with hle | hle
    · rw [take_of_length_le hle] at hrest
      rw [← hrest, drop_left' rfl, take_of_length_le le_rfl]
    · have hlen := congrArg List.length hrest
      rw [length_append, length_take_of_le hle] at hlen
      rw [take_append_of_le_length hle, ← hrest,
        length_eq_zero_iff.mp (show rest.length = 0 by omega), append_nil, length_take_of_le hle]

/-- A failed load leaves the log alone if it got no further than the header
    and the allocation, or if it read what was there.  An allocation of size 0
    has freed it. -/
def LogKept (grants : Nat → Bool) (log_cap : Nat) (r : Raft) (file : Option (List UInt8)) : Prop :=
  match file.bind load_header with
  | none => True
  | some (h, bs) =>
      let size := h.len * ENTRY_SIZE % 2 ^ 64
      (log_cap < h.len → size ≠ 0) ∧
        ((log_cap < h.len ∧ grants size = false) ∨
          (log_cap < h.len → (log_bytes r.log).length ≤ size) ∧
            bs.take (log_bytes r.log).length <+: log_bytes r.log)

/-- A load that returns -1 changes no field of the node, and its log exactly if
    it has freed it or read other entries; a load of what `raft_save` wrote
    restores it, if there is memory for its log. -/
theorem raft_load_iff (grants : Nat → Bool) (log_cap : Nat) {r : Raft} (hr : Storable r) :
    (∀ file, (raft_load grants log_cap r file).ok = false →
      (raft_load grants log_cap r file).node = r ∧
        ((raft_load grants log_cap r file).log = some (log_bytes r.log) ↔
          LogKept grants log_cap r file)) ∧
      ∀ r₀, (log_cap < r.log.length → grants (r.log.length * ENTRY_SIZE) = true) →
        let load := raft_load grants log_cap r₀ (some (save_bytes r))
        load.ok = true ∧ SamePersistent load.node r ∧
          load.node.commit_index = r.log_base ∧ load.node.last_applied = r.log_base := by
  refine ⟨fun file hfail => ?_, fun r₀ hmem => ?_⟩
  · unfold raft_load LogKept at *
    cases hfile : file.bind load_header with
    | none => exact ⟨rfl, iff_of_true rfl trivial⟩
    | some x =>
      obtain ⟨h, bs⟩ := x
      rw [hfile] at hfail
      dsimp only at hfail ⊢
      generalize log_bytes r.log = log, h.len * ENTRY_SIZE % 2 ^ 64 = size at *
      by_cases hfree : log_cap < h.len ∧ size = 0
      · rw [if_pos hfree]
        exact ⟨rfl, iff_of_false nofun fun hkept => hkept.1 hfree.1 hfree.2⟩
      rw [if_neg hfree] at hfail ⊢
      rw [and_iff_right (not_and.mp hfree)]
      by_cases hgrow : log_cap < h.len ∧ grants size = false
      · rw [if_pos hgrow]
        exact ⟨rfl, iff_of_true rfl (.inl hgrow)⟩
      rw [if_neg hgrow] at hfail ⊢
      rw [or_iff_right hgrow]
      by_cases hshort : bs.length < size
      swap
      · rw [if_neg hshort] at hfail
        cases hfail
      -- the file has ended early, so all of it was read
      rw [if_pos hshort, take_of_length_le hshort.le, Option.some_inj]
      refine ⟨rfl, ?_⟩
      by_cases hcut : log_cap < h.len → log.length ≤ size
      · have hkept : (if log_cap < h.len then log.take size else log) = log := by
          split
          · next hlt => exact take_of_length_le (hcut hlt)
          · rfl
        rw [hkept, overlay_eq_iff, and_iff_right hcut]
      · -- the product has wrapped, and the array is shorter than before
        refine iff_of_false (fun heq => ?_) fun h => hcut h.1
        push Not at hcut
        rw [if_pos hcut.1] at heq
        have hlen := congrArg List.length heq
        rw [length_take, length_append, length_drop, length_take] at hlen
        omega
  · obtain ⟨hok, hnode⟩ := raft_load_saved grants log_cap hr hmem r₀
    dsimp only
    rw [hnode]
    exact ⟨hok, reload_same r₀ r, rfl, rfl⟩

/-- A leader of term `t` with one command in its log. -/
def with_command (t : Nat) (command : Int) : Raft :=
  { raft_start 0 3 1 1 with current_term := t, entries := [⟨t, command, false, false⟩] }

/-- A node of term 3 behind a snapshot, with a command and a configuration. -/
def compacted : Raft :=
  { raft_start 0 3 1 1 with
    current_term := 3, voted_for := some 2, member_mask := 3, base_member_mask := 7
    log_base := 4, snapshot_value := -5, marker := ⟨2, 0, false, false⟩
    entries := [⟨2, 7, false, false⟩, ⟨3, 3, false, true⟩] }

/-- The file cut in its header leaves another node's log; the whole of it is
    restored into a log array that has to grow. -/
theorem raft_load_iff_compacted :
    (raft_load (fun _ => true) 2 (with_command 1 5) (some ((save_bytes compacted).take 40))).log =
        some (log_bytes (with_command 1 5).log) ∧
      let load := raft_load (fun _ => true) 2 (with_command 1 5) (some (save_bytes compacted))
      load.ok = true ∧ SamePersistent load.node compacted ∧
        load.node.commit_index = 4 ∧ load.node.last_applied = 4 :=
  ⟨((raft_load_iff (fun _ => true) 2 (by decide)).1 _ (by decide +kernel)).2.mpr trivial,
    (raft_load_iff (fun _ => true) 2 (r := compacted) (by decide)).2 (with_command 1 5) fun _ => rfl⟩

/-- The file ends one byte early: the load fails, and the node's entry is gone. -/
theorem failed_load_changes_log :
    ¬ ∀ (grants : Nat → Bool) (log_cap : Nat) (r : Raft) (file : Option (List UInt8)),
      r.log.length ≤ log_cap → (raft_load grants log_cap r file).ok = false →
      (raft_load grants log_cap r file).log = some (log_bytes r.log) := by
  intro hall
  have h := hall (fun _ => true) 16 (with_command 1 5)
    (some (save_bytes (with_command 2 7)).dropLast) (by decide) (by decide +kernel)
  exact absurd h (by decide +kernel)

end MiniDb
