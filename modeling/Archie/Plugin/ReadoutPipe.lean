import Archie.Lib.Pipe
import Archie.Lib.Strtoumax

/-! Reading a message from a pipe: `readout_pipe_size` and `readout_pipe` of faultplugin.c.

        "4096\n" message …      size, byte by byte up to the newline, then the message in pieces

    The loop for the message ends when enough bytes are there or `read` fails. At the end of the stream
    `read` returns 0, which is neither. -/

namespace Archie.Plugin

open Strtoumax

/-! ### The two functions -/

def newline : UInt8 := 10

/-- `while (c != '\n')` -/
def sizeLoop : ℕ → List UInt8 → UInt8 → Pipe → Option (ℕ × Pipe)
  | 0, _, _, _ => none
  | fuel + 1, sizeStr, c, pipe =>
    if c = newline then some (strtoumax sizeStr, pipe)
    else match pipe.read 1 with
      | (some [c], pipe) => sizeLoop fuel (sizeStr ++ [c]) c pipe
      | (_, pipe) => some (0, pipe)

def readoutPipeSize (fuel : ℕ) (pipe : Pipe) : Option (ℕ × Pipe) := sizeLoop fuel [] 32 pipe

/-- What `readout_pipe` returns, and what it leaves: the buffer, if there is one, and the pipe. -/
structure Readout where
  returned : Int
  protobufMsgBuff : Option (List UInt8)
  pipe : Pipe

/-- A `size_t` as an `int`: the lower 32 bits. -/
def toInt (n : ℕ) : Int := (BitVec.ofNat 32 n).toInt

/-- An `int` as a `size_t`. -/
def sizeT (i : Int) : ℕ := (i % 2 ^ 64).toNat

/-- `while(total_read < message_size)` -/
def messageLoop (messageSize : ℕ) : ℕ → Int → ℕ → List UInt8 → Pipe → Option Readout
  | 0, _, _, _, _ => none
  | fuel + 1, left, totalRead, buff, pipe =>
    if totalRead < messageSize then
      match pipe.read (sizeT left) with
      | (none, pipe) => some ⟨-1, some buff, pipe⟩
      | (some chars, pipe) =>
        messageLoop messageSize fuel (left - chars.length) (totalRead + chars.length) (buff ++ chars)
          pipe
    else some ⟨totalRead, some buff, pipe⟩

/-- `int left = message_size` -/
def readoutPipe (malloc : ℕ → Bool) (fuel : ℕ) (pipe : Pipe) : Option Readout := do
  let (messageSize, pipe) ← readoutPipeSize fuel pipe
  if messageSize = 0 then some ⟨-1, none, pipe⟩
  else if malloc messageSize = false then some ⟨-1, none, pipe⟩
  else messageLoop messageSize fuel (toInt messageSize) 0 [] pipe

/-- What `configure_qemu` and `write_fault_list_to_pipe` write for a message. -/
def sizedMessage (out : List UInt8) : List UInt8 := decimal out.length ++ newline :: out

/-! ### Conversions -/

theorem toInt_of_low {n : ℕ} (h : n % 2 ^ 32 < 2 ^ 31) : toInt n = (n % 2 ^ 32 : ℕ) := by
  rw [toInt, BitVec.toInt_eq_toNat_cond, BitVec.toNat_ofNat]
  split <;> omega

theorem sizeT_natCast {n : ℕ} (h : n ≤ Pipe.SSIZE_MAX) : sizeT n = n := by
  rw [Pipe.SSIZE_MAX] at h
  rw [sizeT]
  omega

theorem toInt_of_high {n : ℕ} (h : 2 ^ 31 ≤ n % 2 ^ 32) : toInt n < 0 ∧ -2 ^ 31 ≤ toInt n := by
  rw [toInt, BitVec.toInt_eq_toNat_cond, BitVec.toNat_ofNat]
  split <;> omega

/-! ### The size -/

/-- More fuel changes no result. -/
theorem sizeLoop_mono {r : ℕ × Pipe} : ∀ {fuel : ℕ} {sizeStr : List UInt8} {c : UInt8} {pipe : Pipe},
    sizeLoop fuel sizeStr c pipe = some r → ∀ k, sizeLoop (fuel + k) sizeStr c pipe = some r
  | 0, _, _, _, h, _ => by cases h
  | fuel + 1, sizeStr, c, pipe, h, k => by
    rw [Nat.add_right_comm]
    rw [sizeLoop] at h ⊢
    split at h
    · next hc => rw [if_pos hc, h]
    · next hc =>
      rw [if_neg hc]
      split at h
      · exact sizeLoop_mono h k
      · exact h

/-- The size line is read up to its newline. -/
theorem sizeLoop_line (following : List UInt8) : ∀ (header : List UInt8) (fuel : ℕ)
    (sizeStr : List UInt8) (c : UInt8) (splits : ℕ → ℕ), newline ∉ header → c ≠ newline →
      header.length + 2 ≤ fuel →
      ∃ splits', sizeLoop fuel sizeStr c ⟨header ++ newline :: following, splits⟩
        = some (strtoumax (sizeStr ++ header ++ [newline]), ⟨following, splits'⟩)
  | [], fuel + 2, sizeStr, c, splits, _, hc, _ => by
    refine ⟨fun k => splits (k + 1), ?_⟩
    rw [sizeLoop, if_neg hc, List.nil_append, Pipe.read_one]
    simp [sizeLoop]
  | d :: header, fuel + 1, sizeStr, c, splits, hheader, hc, hfuel => by
    obtain ⟨hd, hheader⟩ := List.ne_and_not_mem_of_not_mem_cons hheader
    rw [List.length_cons] at hfuel
    obtain ⟨splits', h⟩ := sizeLoop_line following header fuel (sizeStr ++ [d]) d
      (fun k => splits (k + 1)) hheader hd.symm (by omega)
    rw [List.append_assoc sizeStr, List.singleton_append] at h
    rw [sizeLoop, if_neg hc, List.cons_append, Pipe.read_one]
    exact ⟨splits', h⟩

/-- A stream without a newline is read to its end. -/
theorem sizeLoop_noLine : ∀ (bytes : List UInt8) (fuel : ℕ) (sizeStr : List UInt8) (c : UInt8)
    (splits : ℕ → ℕ), newline ∉ bytes → c ≠ newline → bytes.length + 1 ≤ fuel →
      ∃ splits', sizeLoop fuel sizeStr c ⟨bytes, splits⟩ = some (0, ⟨[], splits'⟩)
  | [], fuel + 1, sizeStr, c, splits, _, hc, _ => by
    rw [sizeLoop, if_neg hc, Pipe.read_end (by decide)]
    exact ⟨_, rfl⟩
  | d :: bytes, fuel + 1, sizeStr, c, splits, hbytes, hc, hfuel => by
    obtain ⟨hd, hbytes⟩ := List.ne_and_not_mem_of_not_mem_cons hbytes
    rw [List.length_cons] at hfuel
    rw [sizeLoop, if_neg hc, Pipe.read_one]
    exact sizeLoop_noLine bytes fuel _ _ _ hbytes hd.symm (by omega)

/-! ### The message -/

/-- If enough bytes are there, the loop takes as many as are left. -/
theorem messageLoop_enough (messageSize : ℕ) : ∀ (fuel left totalRead : ℕ) (buff : List UInt8)
    (pipe : Pipe), totalRead + left = messageSize → left ≤ pipe.bytes.length →
      left ≤ Pipe.SSIZE_MAX → left < fuel →
      ∃ splits, messageLoop messageSize fuel left totalRead buff pipe
        = some ⟨messageSize, some (buff ++ pipe.bytes.take left), ⟨pipe.bytes.drop left, splits⟩⟩
  | fuel + 1, 0, totalRead, buff, pipe, hsum, _, _, _ => by
    rw [Nat.add_zero] at hsum
    rw [messageLoop, if_neg (by omega), hsum, List.take_zero, List.append_nil]
    exact ⟨_, rfl⟩
  | fuel + 1, left + 1, totalRead, buff, pipe, hsum, hthere, hmax, hfuel => by
    have hpos : 0 < pipe.received (left + 1) := Pipe.received_pos (by omega) (by omega)
    have hle : pipe.received (left + 1) ≤ left + 1 := Pipe.received_le_count
    rw [messageLoop, if_pos (by omega), sizeT_natCast hmax, Pipe.read_eq hmax]
    dsimp only
    rw [Pipe.length_take_received, ← Nat.cast_sub hle]
    generalize pipe.received (left + 1) = n at hpos hle
    have hrest : left + 1 = n + (left + 1 - n) := by omega
    obtain ⟨splits, h⟩ := messageLoop_enough messageSize fuel (left + 1 - n) (totalRead + n)
      (buff ++ pipe.bytes.take n) ⟨pipe.bytes.drop n, fun k => pipe.splits (k + 1)⟩
      (by omega) (by rw [List.length_drop]; omega) (by omega) (by omega)
    rw [List.append_assoc, ← List.take_add, List.drop_drop, ← hrest] at h
    exact ⟨splits, h⟩

/-- Nothing ends the loop if the bytes that `left` asks for, or that are there, are too few. -/
theorem messageLoop_starved (messageSize : ℕ) : ∀ (fuel left totalRead : ℕ) (buff : List UInt8)
    (pipe : Pipe), left ≤ Pipe.SSIZE_MAX → min left pipe.bytes.length + totalRead < messageSize →
      messageLoop messageSize fuel left totalRead buff pipe = none
  | 0, _, _, _, _, _, _ => rfl
  | fuel + 1, left, totalRead, buff, pipe, hmax, hfew => by
    have hle : pipe.received left ≤ left := Pipe.received_le_count
    have hthere : pipe.received left ≤ pipe.bytes.length := Pipe.received_le_length
    rw [messageLoop, if_pos (by omega), sizeT_natCast hmax, Pipe.read_eq hmax]
    dsimp only
    rw [Pipe.length_take_received, ← Nat.cast_sub hle]
    exact messageLoop_starved messageSize fuel _ _ _ _ (by omega) (by rw [List.length_drop]; omega)

/-- A negative `left` makes `read` fail. -/
theorem messageLoop_negative {messageSize : ℕ} (hpos : 0 < messageSize) {left : Int} (hneg : left < 0)
    (hlow : -2 ^ 31 ≤ left) (fuel : ℕ) (pipe : Pipe) :
    messageLoop messageSize (fuel + 1) left 0 [] pipe = some ⟨-1, some [], pipe⟩ := by
  have hsize : Pipe.SSIZE_MAX < sizeT left := by
    rw [Pipe.SSIZE_MAX, sizeT]
    omega
  rw [messageLoop, if_pos hpos, Pipe.read, if_pos hsize]

/-! ### Messages -/

/-- A stream announces what its first line says. -/
def Announces (bytes : List UInt8) (size : ℕ) (following : List UInt8) : Prop :=
  ∃ header, newline ∉ header ∧ bytes = header ++ newline :: following ∧
    size = strtoumax (header ++ [newline])

variable {malloc : ℕ → Bool} {pipe : Pipe} {size : ℕ} {following : List UInt8}

theorem announces_sizedMessage {message : List UInt8} (hpos : 0 < message.length)
    (hlt : message.length < 2 ^ 64) (following : List UInt8) :
    Announces (sizedMessage message ++ following) message.length (message ++ following) := by
  refine ⟨decimal message.length, fun h => ?_, ?_, (strtoumax_decimal hpos hlt).symm⟩
  · exact absurd (le_of_mem_decimal h) (by decide)
  · rw [sizedMessage, List.append_assoc, List.cons_append]

theorem Announces.readoutPipeSize (h : Announces pipe.bytes size following) : ∃ splits,
    (∀ fuel, pipe.bytes.length + 2 ≤ fuel →
      Plugin.readoutPipeSize fuel pipe = some (size, ⟨following, splits⟩)) ∧
    ∀ fuel r, Plugin.readoutPipeSize fuel pipe = some r → r = (size, ⟨following, splits⟩) := by
  obtain ⟨header, hheader, hbytes, rfl⟩ := h
  have hlen : header.length + 2 ≤ pipe.bytes.length + 2 := by
    rw [hbytes, List.length_append]
    omega
  obtain ⟨splits, hread⟩ := sizeLoop_line following header _ [] 32 pipe.splits hheader (by decide) hlen
  rw [← hbytes, List.nil_append] at hread
  refine ⟨splits, fun fuel hfuel => ?_, fun fuel r hr => ?_⟩
  · obtain ⟨k, rfl⟩ := Nat.exists_eq_add_of_le hfuel
    exact sizeLoop_mono hread k
  · have hmore := sizeLoop_mono hr (pipe.bytes.length + 2)
    have hsame := sizeLoop_mono hread fuel
    rw [Nat.add_comm, hmore] at hsame
    exact Option.some.inj hsame

/-- A stream announces one size. -/
theorem Announces.unique {size' : ℕ} {following' : List UInt8} (h : Announces pipe.bytes size following)
    (h' : Announces pipe.bytes size' following') : size' = size ∧ following' = following := by
  obtain ⟨splits, hread, _⟩ := h.readoutPipeSize
  obtain ⟨splits', _, hread'⟩ := h'.readoutPipeSize
  obtain ⟨hsize, hpipe⟩ := Prod.mk.inj (hread' _ _ (hread _ le_rfl))
  exact ⟨hsize.symm, (Pipe.mk.inj hpipe).1.symm⟩

theorem readoutPipe_of_size (malloc : ℕ → Bool) {fuel : ℕ} {rest : Pipe}
    (h : readoutPipeSize fuel pipe = some (size, rest)) :
    readoutPipe malloc fuel pipe = if size = 0 then some ⟨-1, none, rest⟩
      else if malloc size = false then some ⟨-1, none, rest⟩
      else messageLoop size fuel (toInt size) 0 [] rest := by
  rw [readoutPipe, h]
  rfl

/-- With all its bytes there, a message is read as a whole. -/
theorem Announces.readoutPipe (h : Announces pipe.bytes size following) (hpos : 0 < size)
    (hmalloc : malloc size = true) (hlt : size < 2 ^ 31) (hthere : size ≤ following.length) {fuel : ℕ}
    (hfuel : pipe.bytes.length + 2 ≤ fuel) : ∃ splits, Plugin.readoutPipe malloc fuel pipe
      = some ⟨size, some (following.take size), ⟨following.drop size, splits⟩⟩ := by
  obtain ⟨splits, hread, _⟩ := h.readoutPipeSize
  have hshort : size < fuel := by
    obtain ⟨header, _, hbytes, _⟩ := h
    rw [hbytes, List.length_append, List.length_cons] at hfuel
    omega
  have hmod : size % 2 ^ 32 = size := Nat.mod_eq_of_lt (by omega)
  have hleft : toInt size = size := by rw [toInt_of_low (by omega), hmod]
  have hmax : size ≤ Pipe.SSIZE_MAX := by
    rw [Pipe.SSIZE_MAX]
    omega
  obtain ⟨splits', hloop⟩ := messageLoop_enough size fuel size 0 [] ⟨following, splits⟩ (Nat.zero_add _)
    hthere hmax hshort
  refine ⟨splits', ?_⟩
  rw [readoutPipe_of_size malloc (hread fuel hfuel), if_neg hpos.ne', hmalloc,
    if_neg Bool.true_eq_false.mp, hleft]
  exact hloop

/-- A message as the workers write it is read in any pieces, and not a byte more. -/
theorem readoutPipe_sizedMessage {message : List UInt8} (hpos : 0 < message.length)
    (hlt : message.length < 2 ^ 31) (hmalloc : malloc message.length = true) (following : List UInt8)
    (splits : ℕ → ℕ) {fuel : ℕ} (hfuel : (sizedMessage message ++ following).length + 2 ≤ fuel) :
    ∃ splits', readoutPipe malloc fuel ⟨sizedMessage message ++ following, splits⟩
      = some ⟨message.length, some message, ⟨following, splits'⟩⟩ := by
  have hline : Announces (⟨sizedMessage message ++ following, splits⟩ : Pipe).bytes message.length
      (message ++ following) := announces_sizedMessage hpos (by omega) following
  obtain ⟨splits', h⟩ := hline.readoutPipe hpos hmalloc hlt (by rw [List.length_append]; omega) hfuel
  rw [List.take_left, List.drop_left] at h
  exact ⟨splits', h⟩

theorem readoutPipe_sizedMessage_three : ∃ splits', readoutPipe (fun _ => true) 20
    ⟨sizedMessage [1, 2, 3] ++ [7], fun k => k⟩ = some ⟨3, some [1, 2, 3], ⟨[7], splits'⟩⟩ :=
  readoutPipe_sizedMessage (by decide) (by decide) rfl [7] _ (by decide)

/-! ### The end of the stream -/

/-- Whatever the stream is, reading the size ends. -/
theorem exists_readoutPipeSize (pipe : Pipe) : ∃ fuel r, readoutPipeSize fuel pipe = some r := by
  by_cases hmem : newline ∈ pipe.bytes
  · obtain ⟨header, following, hbytes, hheader⟩ := List.eq_append_cons_of_mem hmem
    have hline : Announces pipe.bytes _ following := ⟨header, hheader, hbytes, rfl⟩
    obtain ⟨splits, hread, _⟩ := hline.readoutPipeSize
    exact ⟨_, _, hread _ le_rfl⟩
  · obtain ⟨splits, h⟩ := sizeLoop_noLine pipe.bytes _ [] 32 pipe.splits hmem (by decide) le_rfl
    exact ⟨_, _, h⟩

/-- Bytes that never come are waited for without end. -/
theorem Announces.starved (h : Announces pipe.bytes size following) (hsize : size ≠ 0)
    (hmalloc : malloc size = true) (hlow : size % 2 ^ 32 < 2 ^ 31)
    (hfew : min (size % 2 ^ 32) following.length < size) (fuel : ℕ) :
    Plugin.readoutPipe malloc fuel pipe = none := by
  obtain ⟨splits, _, hread⟩ := h.readoutPipeSize
  have hmax : size % 2 ^ 32 ≤ Pipe.SSIZE_MAX := by
    rw [Pipe.SSIZE_MAX]
    omega
  have hloop := messageLoop_starved size fuel _ 0 [] ⟨following, splits⟩ hmax hfew
  rcases hr : Plugin.readoutPipeSize fuel pipe with _ | r
  · rw [Plugin.readoutPipe, hr]
    rfl
  · rw [hread fuel r hr] at hr
    rw [readoutPipe_of_size malloc hr, if_neg hsize, hmalloc, if_neg Bool.true_eq_false.mp,
      toInt_of_low hlow]
    exact hloop

/-- The message is announced and its stream ends before. -/
def Truncated (bytes : List UInt8) : Prop :=
  ∃ size following, Announces bytes size following ∧ following.length < size

/-- Both functions end, and a message that is cut off is an error. -/
structure EndsOrFails (malloc : ℕ → Bool) (pipe : Pipe) : Prop where
  size : ∃ fuel r, readoutPipeSize fuel pipe = some r
  message : ∃ fuel r, readoutPipe malloc fuel pipe = some r ∧
    (Truncated pipe.bytes → r.returned < 0)

/-- The size is 0, no memory is to be had, the size is a negative `int`, or the message is there. -/
def Readable (malloc : ℕ → Bool) (size : ℕ) (following : List UInt8) : Prop :=
  size = 0 ∨ malloc size = false ∨ 2 ^ 31 ≤ size % 2 ^ 32 ∨ (size < 2 ^ 31 ∧ size ≤ following.length)

theorem Announces.exists_readoutPipe (h : Announces pipe.bytes size following)
    (hreadable : Readable malloc size following) :
    ∃ fuel r, Plugin.readoutPipe malloc fuel pipe = some r ∧ (Truncated pipe.bytes → r.returned < 0) := by
  obtain ⟨splits, hread, -⟩ := h.readoutPipeSize
  have hsome := readoutPipe_of_size malloc (hread (pipe.bytes.length + 1 + 1) le_rfl)
  rcases Nat.eq_zero_or_pos size with rfl | hpos
  · exact ⟨_, _, hsome, fun _ => neg_one_lt_zero⟩
  rw [if_neg hpos.ne'] at hsome
  rcases hmalloc : malloc size with _ | _
  · rw [if_pos hmalloc] at hsome
    exact ⟨_, _, hsome, fun _ => neg_one_lt_zero⟩
  rw [hmalloc, if_neg Bool.true_eq_false.mp] at hsome
  rcases hreadable.resolve_left hpos.ne' with hno | hhigh | ⟨hlt, hthere⟩
  · exact absurd (hmalloc.symm.trans hno) Bool.true_eq_false.mp
  · obtain ⟨hneg, hlow⟩ := toInt_of_high hhigh
    rw [messageLoop_negative hpos hneg hlow] at hsome
    exact ⟨_, _, hsome, fun _ => neg_one_lt_zero⟩
  · obtain ⟨splits', hwhole⟩ := h.readoutPipe hpos hmalloc hlt hthere le_rfl
    refine ⟨_, _, hwhole, fun ⟨size', following', h', hcut⟩ => ?_⟩
    obtain ⟨rfl, rfl⟩ := h.unique h'
    omega

/-- The functions end without a size line, and with one that can be obeyed or is refused. -/
theorem endsOrFails_iff (malloc : ℕ → Bool) (pipe : Pipe) : EndsOrFails malloc pipe ↔
    ∀ size following, Announces pipe.bytes size following → Readable malloc size following := by
  constructor
  · rintro ⟨-, fuel, r, hr, -⟩ size following hline
    by_contra hno
    simp only [Readable, not_or, Bool.not_eq_false, not_and, not_le] at hno
    obtain ⟨hsize, hmalloc, hlow, hfew⟩ := hno
    rw [hline.starved hsize hmalloc hlow (by omega)] at hr
    cases hr
  · intro h
    refine ⟨exists_readoutPipeSize pipe, ?_⟩
    by_cases hmem : newline ∈ pipe.bytes
    · obtain ⟨header, following, hbytes, hheader⟩ := List.eq_append_cons_of_mem hmem
      have hline : Announces pipe.bytes _ following := ⟨header, hheader, hbytes, rfl⟩
      exact hline.exists_readoutPipe (h _ following hline)
    · obtain ⟨splits, hread⟩ := sizeLoop_noLine pipe.bytes _ [] 32 pipe.splits hmem (by decide) le_rfl
      exact ⟨_, _, readoutPipe_of_size malloc hread, fun _ => neg_one_lt_zero⟩

/-- Five bytes are announced, two arrive. -/
theorem not_endsOrFails_truncated :
    ¬EndsOrFails (fun _ => true) ⟨(sizedMessage [1, 2, 3, 4, 5]).take 4, fun k => k⟩ := by
  rintro ⟨-, fuel, r, hr, -⟩
  have hline : Announces (⟨(sizedMessage [1, 2, 3, 4, 5]).take 4, fun k => k⟩ : Pipe).bytes 5 [1, 2] :=
    ⟨[53], by decide, by decide, by decide⟩
  rw [hline.starved (by decide) rfl (by decide) (by decide)] at hr
  cases hr

end Archie.Plugin
