import MacWorker.Controller.Protocol

/-! # Frames of the controller channel

A frame is a payload behind its length in four bytes, most significant first. The decoder
of a socket takes what arrives in pieces of any size and keeps the bytes of one frame. A
piece that ends a frame is taken up to there only, and the caller feeds the rest again.

What the decoder has and what came out of it are a function of the bytes that went in
(`Decoded`), so the pieces in which they came do not matter. -/
namespace MacWorker.Controller
open List

abbrev Bytes := List UInt8

def maxFrameBytes : Nat := 1024 * 1024

/-! ## The length of a frame -/

def toBeBytes (n : Nat) : Bytes :=
  [UInt8.ofNat (n / 2 ^ 24), UInt8.ofNat (n / 2 ^ 16), UInt8.ofNat (n / 2 ^ 8), UInt8.ofNat n]

def ofBeBytes (bytes : Bytes) : Nat := bytes.foldl (fun n b => n * 256 + b.toNat) 0

theorem length_toBeBytes (n : Nat) : (toBeBytes n).length = 4 := rfl

theorem ofBeBytes_toBeBytes {n} (h : n < 2 ^ 32) : ofBeBytes (toBeBytes n) = n := by
  simp only [toBeBytes, ofBeBytes, foldl_cons, foldl_nil, UInt8.toNat_ofNat']
  omega

theorem toBeBytes_ofBeBytes {bytes} (h : bytes.length = 4) :
    toBeBytes (ofBeBytes bytes) = bytes := by
  match bytes, h with
  | [a, b, c, d], _ =>
    have ha := a.toNat_lt
    have hb := b.toNat_lt
    have hc := c.toNat_lt
    have hd := d.toNat_lt
    simp only [ofBeBytes, toBeBytes, foldl_cons, foldl_nil, List.cons.injEq, and_true]
    refine ⟨?_, ?_, ?_, ?_⟩
    all_goals
      apply UInt8.toNat_inj.mp
      rw [UInt8.toNat_ofNat']
      omega

def allowedLength (length : Nat) : Bool := !(length == 0 || maxFrameBytes < length)

theorem allowedLength_iff {length} :
    allowedLength length = true ↔ 0 < length ∧ length ≤ maxFrameBytes := by
  unfold allowedLength
  simp [Nat.pos_iff_ne_zero]

def encodeFrame (payload : Bytes) : Except WorkerError Bytes :=
  if 2 ^ 32 ≤ payload.length then .error (transport "controller RPC frame exceeds 4 GiB")
  else if maxFrameBytes < payload.length then
    .error (transport "controller RPC frame exceeds 1 MiB")
  else if payload = [] then .error (transport "controller RPC frame is empty")
  else .ok (toBeBytes payload.length ++ payload)

theorem encodeFrame_eq_ok {payload frame} (h : encodeFrame payload = .ok frame) :
    allowedLength payload.length = true ∧ frame = toBeBytes payload.length ++ payload := by
  unfold encodeFrame at h
  split at h
  · cases h
  · split at h
    · cases h
    · split at h
      · cases h
      · rename_i hm hem
        refine ⟨allowedLength_iff.mpr ⟨length_pos_iff.mpr hem, Nat.le_of_not_lt hm⟩, ?_⟩
        exact (Except.ok.inj h).symm

/-! ## The decoder -/

/-- Of the reasons for which a channel fails, that of reading a frame. -/
inductive ChannelReason where
  | invalidFrame

structure DecodeProgress where
  consumed : Nat
  payload : Option Bytes

structure BoundedFrameDecoder where
  /-- The bytes of the length that came so far. -/
  lengthBytes : Bytes
  length : Option Nat
  payload : Bytes
  invalid : Bool
  deriving DecidableEq

namespace BoundedFrameDecoder

def new : BoundedFrameDecoder := ⟨[], none, [], false⟩

def feedPayload (decoder : BoundedFrameDecoder) (input : Bytes) (consumed : Nat) :
    BoundedFrameDecoder × Except ChannelReason DecodeProgress :=
  match decoder.length with
  | none => (decoder, .error .invalidFrame)
  | some length =>
    let count := min (length - decoder.payload.length) (input.length - consumed)
    let payload := decoder.payload ++ (input.drop consumed).take count
    if payload.length = length then
      (⟨[], none, [], decoder.invalid⟩, .ok ⟨consumed + count, some payload⟩)
    else ({ decoder with payload := payload }, .ok ⟨consumed + count, none⟩)

def feed (decoder : BoundedFrameDecoder) (input : Bytes) :
    BoundedFrameDecoder × Except ChannelReason DecodeProgress :=
  if decoder.invalid then (decoder, .error .invalidFrame)
  else if decoder.lengthBytes.length < 4 then
    let count := min (4 - decoder.lengthBytes.length) input.length
    let lengthBytes := decoder.lengthBytes ++ input.take count
    if lengthBytes.length < 4 then
      ({ decoder with lengthBytes := lengthBytes }, .ok ⟨count, none⟩)
    else
      let length := ofBeBytes lengthBytes
      if allowedLength length then
        feedPayload ⟨lengthBytes, some length, [], decoder.invalid⟩ input count
      else ({ decoder with lengthBytes := lengthBytes, invalid := true }, .error .invalidFrame)
  else feedPayload decoder input 0

def retainedBytes (decoder : BoundedFrameDecoder) : Nat :=
  decoder.lengthBytes.length + decoder.payload.length

/-- Feed a piece until it is used up, and collect the payloads. What an invalid length
refuses is dropped. The number bounds the calls. -/
def feedPiece : Nat → BoundedFrameDecoder → Bytes → BoundedFrameDecoder × List Bytes
  | 0, decoder, _ => (decoder, [])
  | _ + 1, decoder, [] => (decoder, [])
  | calls + 1, decoder, input =>
    match decoder.feed input with
    | (decoder, .error _) => (decoder, [])
    | (decoder, .ok progress) =>
      let (decoder, more) := feedPiece calls decoder (input.drop progress.consumed)
      (decoder, progress.payload.toList ++ more)

/-- Feed the pieces of a stream one after the other. Every call takes a byte at least, so
there are no more calls for a piece than it has bytes. -/
def feedPieces : BoundedFrameDecoder → List Bytes → BoundedFrameDecoder × List Bytes
  | decoder, [] => (decoder, [])
  | decoder, piece :: pieces =>
    let (decoder, payloads) := feedPiece piece.length decoder piece
    let (decoder, more) := feedPieces decoder pieces
    (decoder, payloads ++ more)

end BoundedFrameDecoder

open BoundedFrameDecoder

/-! ## What a stream decodes to -/

/-- The frames of allowed payloads, one behind the other. -/
def framesOf (payloads : List Bytes) : Bytes := payloads.flatMap fun p => toBeBytes p.length ++ p

/-- The payloads that came out of a stream, and the decoder behind it. -/
inductive Decoded : Bytes → List Bytes → BoundedFrameDecoder → Prop
  | waiting {payloads : List Bytes} {part : Bytes} :
      (∀ p ∈ payloads, allowedLength p.length = true) → part.length < 4 →
      Decoded (framesOf payloads ++ part) payloads ⟨part, none, [], false⟩
  | reading {payloads : List Bytes} {lengthBytes part : Bytes} :
      (∀ p ∈ payloads, allowedLength p.length = true) → lengthBytes.length = 4 →
      allowedLength (ofBeBytes lengthBytes) = true → part.length < ofBeBytes lengthBytes →
      Decoded (framesOf payloads ++ (lengthBytes ++ part)) payloads
        ⟨lengthBytes, some (ofBeBytes lengthBytes), part, false⟩
  | refused {payloads : List Bytes} {lengthBytes rest : Bytes} :
      (∀ p ∈ payloads, allowedLength p.length = true) → lengthBytes.length = 4 →
      allowedLength (ofBeBytes lengthBytes) = false →
      Decoded (framesOf payloads ++ (lengthBytes ++ rest)) payloads ⟨lengthBytes, none, [], true⟩

section
variable {stream input : Bytes} {payloads : List Bytes} {decoder decoder' : BoundedFrameDecoder}

theorem framesOf_append (payloads more : List Bytes) :
    framesOf (payloads ++ more) = framesOf payloads ++ framesOf more := flatMap_append

theorem framesOf_single (payload : Bytes) :
    framesOf [payload] = toBeBytes payload.length ++ payload := by
  simp [framesOf]

theorem Decoded.retained (h : Decoded stream payloads decoder) :
    decoder.retainedBytes ≤ 4 + decoder.length.getD 0 ∧ decoder.length.getD 0 ≤ maxFrameBytes := by
  cases h with
  | waiting _ hp =>
    refine ⟨?_, Nat.zero_le _⟩
    simp only [retainedBytes, length_nil]
    omega
  | reading _ hf ha hp =>
    refine ⟨?_, (allowedLength_iff.mp ha).2⟩
    simp only [retainedBytes, Option.getD_some]
    omega
  | refused _ hf =>
    refine ⟨?_, Nat.zero_le _⟩
    simp only [retainedBytes, length_nil]
    omega

def Feeds (stream : Bytes) (payloads : List Bytes) (input : Bytes)
    (answer : BoundedFrameDecoder × Except ChannelReason DecodeProgress) : Prop :=
  match answer with
  | (decoder, .ok progress) => progress.consumed ≤ input.length ∧
      Decoded (stream ++ input.take progress.consumed) (payloads ++ progress.payload.toList)
        decoder ∧
      (progress.payload = none → progress.consumed = input.length) ∧
      (input ≠ [] → 0 < progress.consumed)
  | (decoder, .error _) => decoder.invalid = true ∧ Decoded (stream ++ input) payloads decoder

theorem feeds_feedPayload {lengthBytes part consumed}
    (hpa : ∀ p ∈ payloads, allowedLength p.length = true) (hf : lengthBytes.length = 4)
    (ha : allowedLength (ofBeBytes lengthBytes) = true) (hpr : part.length < ofBeBytes lengthBytes)
    (hle : consumed ≤ input.length)
    (hst : stream ++ input.take consumed = framesOf payloads ++ (lengthBytes ++ part)) :
    Feeds stream payloads input (feedPayload
      ⟨lengthBytes, some (ofBeBytes lengthBytes), part, false⟩ input consumed) := by
  obtain ⟨length, hl⟩ : ∃ length, length = ofBeBytes lengthBytes := ⟨_, rfl⟩
  obtain ⟨count, hc⟩ : ∃ count, count = min (length - part.length) (input.length - consumed) :=
    ⟨_, rfl⟩
  obtain ⟨taken, ht⟩ : ∃ taken, taken = (input.drop consumed).take count := ⟨_, rfl⟩
  have hln : taken.length = count := by
    rw [ht, length_take, length_drop]
    omega
  have hal : stream ++ input.take (consumed + count) =
      framesOf payloads ++ (lengthBytes ++ (part ++ taken)) := by
    rw [take_add, ← ht, ← append_assoc, hst]
    simp
  have hs : input ≠ [] → 0 < consumed + count := by
    intro hne
    have := length_pos_iff.mpr hne
    omega
  rw [← hl] at hpr
  unfold feedPayload
  dsimp only
  rw [← hl, ← hc, ← ht]
  split
  · rename_i hfu
    refine ⟨show consumed + count ≤ input.length by omega, ?_, nofun, hs⟩
    -- The frame is complete, and the decoder waits for the next one.
    have hfr : framesOf payloads ++ (lengthBytes ++ (part ++ taken)) =
        framesOf (payloads ++ [part ++ taken]) ++ [] := by
      rw [framesOf_append, framesOf_single, hfu, hl, toBeBytes_ofBeBytes hf]
      simp
    rw [hal, hfr, Option.toList_some]
    refine .waiting (fun p hp => ?_) (by decide)
    rcases mem_append.mp hp with hp | hp
    · exact hpa p hp
    · rw [mem_singleton.mp hp, hfu, hl]
      exact ha
  · rename_i hpt
    rw [length_append] at hpt
    refine ⟨show consumed + count ≤ input.length by omega, ?_,
      fun _ => show consumed + count = input.length by omega, hs⟩
    rw [hal, Option.toList_none, append_nil, hl]
    refine .reading hpa hf ha ?_
    rw [length_append]
    omega

theorem Decoded.feeds (h : Decoded stream payloads decoder) (input : Bytes) :
    Feeds stream payloads input (decoder.feed input) := by
  cases h with
  | @waiting _ part hp hpa =>
    unfold feed
    rw [if_neg Bool.false_ne_true, if_pos hpa]
    dsimp only
    obtain ⟨count, hc⟩ : ∃ count, count = min (4 - part.length) input.length := ⟨_, rfl⟩
    rw [← hc]
    have hl : (part ++ input.take count).length = part.length + count := by
      rw [length_append, length_take]
      omega
    split
    · -- The length is not complete.
      rename_i hs
      refine ⟨show count ≤ input.length by omega, ?_, fun _ => show count = input.length by omega,
        fun hne => show 0 < count from ?_⟩
      · rw [Option.toList_none, append_nil, append_assoc]
        exact .waiting hp hs
      · have := length_pos_iff.mpr hne
        omega
    · rename_i hfu
      have hf : (part ++ input.take count).length = 4 := by omega
      split
      · rename_i ha
        refine feeds_feedPayload hp hf ha (allowedLength_iff.mp ha).1 (by omega) ?_
        rw [append_nil, append_assoc]
      · rename_i hb
        refine ⟨rfl, ?_⟩
        have hr : framesOf payloads ++ part ++ input =
            framesOf payloads ++ (part ++ input.take count ++ input.drop count) := by
          rw [append_assoc, append_assoc, take_append_drop]
        rw [hr]
        exact .refused hp hf (Bool.eq_false_iff.mpr hb)
  | @reading _ lengthBytes part hp hf ha hpa =>
    unfold feed
    rw [if_neg Bool.false_ne_true, if_neg (by dsimp only; omega)]
    refine feeds_feedPayload hp hf ha hpa (Nat.zero_le _) ?_
    rw [take_zero, append_nil]
  | @refused _ lengthBytes rest hp hf hb =>
    unfold feed
    rw [if_pos rfl]
    refine ⟨rfl, ?_⟩
    rw [append_assoc, append_assoc]
    exact .refused hp hf hb

theorem feed_of_invalid (h : decoder.invalid = true) (input : Bytes) :
    decoder.feed input = (decoder, .error .invalidFrame) := by
  rw [feed, if_pos h]

section
variable (h : Decoded stream payloads decoder)
include h

theorem Decoded.more_refused (hin : decoder.invalid = true)
    (input : Bytes) : Decoded (stream ++ input) payloads decoder := by
  have hf := h.feeds input
  rw [feed_of_invalid hin] at hf
  exact hf.2

theorem Decoded.feedPiece {calls} (hc : input.length ≤ calls) :
    ∃ decoder' out, decoder.feedPiece calls input = (decoder', out) ∧
      Decoded (stream ++ input) (payloads ++ out) decoder' := by
  induction calls generalizing stream payloads decoder input with
  | zero =>
    rw [length_eq_zero_iff.mp (Nat.le_zero.mp hc)]
    exact ⟨decoder, [], rfl, by simpa using h⟩
  | succ calls ih =>
    cases input with
    | nil => exact ⟨decoder, [], rfl, by simpa using h⟩
    | cons b input =>
      have hf := h.feeds (b :: input)
      rw [feedPiece]
      · generalize decoder.feed (b :: input) = answer at hf ⊢
        match answer, hf with
        | (next, .error _), ⟨_, hn⟩ => exact ⟨next, [], rfl, by simpa using hn⟩
        | (next, .ok progress), ⟨hle, hn, _, hs⟩ =>
          have hp := hs (cons_ne_nil _ _)
          have hsh : ((b :: input).drop progress.consumed).length ≤ calls := by
            rw [length_drop]
            omega
          obtain ⟨last, out, hou, hl⟩ := ih hn hsh
          refine ⟨last, progress.payload.toList ++ out, ?_, ?_⟩
          · dsimp only
            rw [hou]
          · rw [append_assoc, take_append_drop, append_assoc] at hl
            exact hl
      · exact cons_ne_nil _ _

/-- **However a stream is cut, it is decoded whole.** -/
theorem Decoded.feedPieces (pieces : List Bytes) :
    ∃ decoder' out, decoder.feedPieces pieces = (decoder', out) ∧
      Decoded (stream ++ pieces.flatten) (payloads ++ out) decoder' := by
  induction pieces generalizing stream payloads decoder with
  | nil => exact ⟨decoder, [], rfl, by simpa using h⟩
  | cons piece pieces ih =>
    obtain ⟨next, out, hou, hn⟩ := h.feedPiece (le_refl piece.length)
    obtain ⟨last, more, hm, hl⟩ := ih hn
    refine ⟨last, out ++ more, ?_, ?_⟩
    · rw [feedPieces, hou]
      dsimp only
      rw [hm]
    · simpa using hl

end

/-! ## A stream decodes in one way -/

theorem length_lt_of_allowed {payload : Bytes} (h : allowedLength payload.length = true) :
    payload.length < 2 ^ 32 := by
  have := (allowedLength_iff.mp h).2
  unfold maxFrameBytes at this
  omega

theorem frame_cancel {p q rest rest' : Bytes} (hp : allowedLength p.length = true)
    (hq : allowedLength q.length = true)
    (h : toBeBytes p.length ++ (p ++ rest) = toBeBytes q.length ++ (q ++ rest')) :
    p = q ∧ rest = rest' := by
  obtain ⟨hl, hb⟩ := append_inj h rfl
  have hs := congrArg ofBeBytes hl
  rw [ofBeBytes_toBeBytes (length_lt_of_allowed hp), ofBeBytes_toBeBytes (length_lt_of_allowed hq)]
    at hs
  exact append_inj hb hs

theorem Decoded.first {payload more} (h : Decoded stream (payload :: more) decoder) :
    allowedLength payload.length = true ∧
      ∃ rest, stream = toBeBytes payload.length ++ (payload ++ rest) ∧
        Decoded rest more decoder := by
  have hf : framesOf (payload :: more) =
      toBeBytes payload.length ++ (payload ++ framesOf more) := by
    simp [framesOf]
  cases h with
  | @waiting _ part hpa hpr =>
    refine ⟨hpa payload mem_cons_self, framesOf more ++ part, ?_, ?_⟩
    · rw [hf]
      simp
    · exact .waiting (fun p hp => hpa p (mem_cons_of_mem _ hp)) hpr
  | @reading _ lengthBytes part hpa hfo ha hpr =>
    refine ⟨hpa payload mem_cons_self, framesOf more ++ (lengthBytes ++ part), ?_, ?_⟩
    · rw [hf]
      simp
    · exact .reading (fun p hp => hpa p (mem_cons_of_mem _ hp)) hfo ha hpr
  | @refused _ lengthBytes rest hpa hfo hb =>
    refine ⟨hpa payload mem_cons_self, framesOf more ++ (lengthBytes ++ rest), ?_, ?_⟩
    · rw [hf]
      simp
    · exact .refused (fun p hp => hpa p (mem_cons_of_mem _ hp)) hfo hb

theorem Decoded.none_yet {lengthBytes rest} (h : Decoded (lengthBytes ++ rest) [] decoder)
    (hf : lengthBytes.length = 4) :
    if allowedLength (ofBeBytes lengthBytes) then rest.length < ofBeBytes lengthBytes
    else decoder.invalid = true := by
  generalize hs : lengthBytes ++ rest = stream at h
  cases h with
  | waiting _ hpa =>
    have := congrArg List.length hs
    simp [framesOf] at this
    omega
  | @reading _ lengthBytes' part _ hf' ha hpa =>
    have hp : lengthBytes ++ rest = lengthBytes' ++ part := hs
    obtain ⟨rfl, rfl⟩ := append_inj hp (hf.trans hf'.symm)
    rw [if_pos ha]
    exact hpa
  | @refused _ lengthBytes' rest' _ hf' hb =>
    have hp : lengthBytes ++ rest = lengthBytes' ++ rest' := hs
    obtain ⟨rfl, rfl⟩ := append_inj hp (hf.trans hf'.symm)
    rw [hb]
    rfl

theorem Decoded.uncons {payload rest} (ha : allowedLength payload.length = true)
    (h : Decoded (toBeBytes payload.length ++ (payload ++ rest)) payloads decoder) :
    ∃ more, payloads = payload :: more ∧ Decoded rest more decoder := by
  cases payloads with
  | nil =>
    exfalso
    have hn := h.none_yet (length_toBeBytes _)
    rw [ofBeBytes_toBeBytes (length_lt_of_allowed ha), if_pos ha, length_append] at hn
    omega
  | cons first more =>
    obtain ⟨hf, rest', hs, hm⟩ := h.first
    obtain ⟨rfl, rfl⟩ := frame_cancel ha hf hs
    exact ⟨more, rfl, hm⟩

theorem Decoded.drop_frames {expected rest} (hex : ∀ p ∈ expected, allowedLength p.length = true)
    (h : Decoded (framesOf expected ++ rest) payloads decoder) :
    ∃ more, payloads = expected ++ more ∧ Decoded rest more decoder := by
  induction expected generalizing payloads with
  | nil => exact ⟨payloads, rfl, h⟩
  | cons payload expected ih =>
    have hs : framesOf (payload :: expected) ++ rest =
        toBeBytes payload.length ++ (payload ++ (framesOf expected ++ rest)) := by
      simp [framesOf]
    rw [hs] at h
    obtain ⟨more, rfl, hm⟩ := h.uncons (hex payload mem_cons_self)
    obtain ⟨last, rfl, hl⟩ := ih (fun p hp => hex p (mem_cons_of_mem _ hp)) hm
    exact ⟨last, rfl, hl⟩

theorem Decoded.short (h : Decoded stream payloads decoder) (hs : stream.length < 4) :
    payloads = [] ∧ decoder = ⟨stream, none, [], false⟩ := by
  cases payloads with
  | cons payload more =>
    obtain ⟨-, rest, rfl, -⟩ := h.first
    rw [length_append, length_toBeBytes] at hs
    omega
  | nil =>
    refine ⟨rfl, ?_⟩
    cases h with
    | waiting => simp [framesOf]
    | reading _ hf =>
      rw [length_append, length_append] at hs
      omega
    | refused _ hf =>
      rw [length_append, length_append] at hs
      omega

/-- An invalid length at the beginning of a stream: nothing comes out of it. -/
theorem Decoded.refuses {lengthBytes rest} (h : Decoded (lengthBytes ++ rest) payloads decoder)
    (hf : lengthBytes.length = 4) (hb : allowedLength (ofBeBytes lengthBytes) = false) :
    payloads = [] ∧ decoder.invalid = true := by
  cases payloads with
  | cons payload more =>
    obtain ⟨ha, rest', hs, -⟩ := h.first
    obtain ⟨rfl, -⟩ := append_inj hs (hf.trans (length_toBeBytes _).symm)
    rw [ofBeBytes_toBeBytes (length_lt_of_allowed ha), ha] at hb
    cases hb
  | nil =>
    have hn := h.none_yet hf
    rw [hb] at hn
    exact ⟨rfl, hn⟩

theorem decoded_new : Decoded [] [] .new :=
  show Decoded (framesOf [] ++ []) [] ⟨[], none, [], false⟩ from .waiting (by simp) (by decide)

theorem Decoded.before_refusal {expected lengthBytes rest}
    (hex : ∀ p ∈ expected, allowedLength p.length = true) (hf : lengthBytes.length = 4)
    (hb : allowedLength (ofBeBytes lengthBytes) = false)
    (hs : stream <+: framesOf expected ++ (lengthBytes ++ rest))
    (hsh : stream.length < (framesOf expected).length + 4) (h : Decoded stream payloads decoder) :
    decoder.invalid = false ∧ payloads <+: expected := by
  obtain ⟨left, hl⟩ := hs
  refine ⟨?_, ?_⟩
  · rw [Bool.eq_false_iff]
    intro hin
    have hw := h.more_refused hin left
    rw [hl] at hw
    obtain ⟨more, rfl, hm⟩ := hw.drop_frames hex
    obtain ⟨rfl, -⟩ := hm.refuses hf hb
    -- The stream has all frames and an invalid length, so it is longer.
    rw [append_nil] at h
    cases h with
    | waiting => cases hin
    | reading => cases hin
    | refused _ hf' =>
      rw [length_append, length_append] at hsh
      omega
  · obtain ⟨last, out, -, hw⟩ := h.feedPieces [left]
    rw [flatten_cons, flatten_nil, append_nil, hl] at hw
    obtain ⟨more, hou, hm⟩ := hw.drop_frames hex
    obtain ⟨rfl, -⟩ := hm.refuses hf hb
    exact ⟨out, by rw [hou, append_nil]⟩

end

theorem frames_of_encoded {payloads frames}
    (h : List.Forall₂ (fun payload frame => encodeFrame payload = .ok frame) payloads frames) :
    (∀ p ∈ payloads, allowedLength p.length = true) ∧ frames.flatten = framesOf payloads := by
  induction h with
  | nil => exact ⟨nofun, rfl⟩
  | @cons payload frame payloads frames hf _ ih =>
    obtain ⟨ha, rfl⟩ := encodeFrame_eq_ok hf
    refine ⟨fun p hp => ?_, ?_⟩
    · rcases mem_cons.mp hp with rfl | hp
      · exact ha
      · exact ih.1 p hp
    · rw [flatten_cons, ih.2]
      rfl

/-- **Decoding does not depend on how a stream is cut.** The payloads of a stream of
frames come out in their order, and a decoder never has more than a length and as many
bytes as it announces. Where a length is invalid, what came before is delivered, and
everything is refused once the length is complete. -/
theorem frames_decoded_in_any_pieces : (∀ payloads frames : List Bytes,
      List.Forall₂ (fun payload frame => encodeFrame payload = .ok frame) payloads frames →
      ∀ pieces : List Bytes, pieces.flatten = frames.flatten →
        new.feedPieces pieces = (.new, payloads)) ∧
    (∀ pieces : List Bytes, (new.feedPieces pieces).1.retainedBytes ≤
          4 + (new.feedPieces pieces).1.length.getD 0 ∧
        (new.feedPieces pieces).1.length.getD 0 ≤ maxFrameBytes) ∧
    (∀ payloads frames : List Bytes,
      List.Forall₂ (fun payload frame => encodeFrame payload = .ok frame) payloads frames →
      ∀ lengthBytes rest : Bytes, lengthBytes.length = 4 →
        allowedLength (ofBeBytes lengthBytes) = false →
      ∀ pieces : List Bytes, pieces.flatten <+: frames.flatten ++ (lengthBytes ++ rest) →
        if pieces.flatten.length < frames.flatten.length + 4 then
          (new.feedPieces pieces).1.invalid = false ∧
          (new.feedPieces pieces).2 <+: payloads
        else
          (new.feedPieces pieces).2 = payloads ∧
          ∀ input, (new.feedPieces pieces).1.feed input =
            ((new.feedPieces pieces).1, .error .invalidFrame)) := by
  refine ⟨fun payloads frames hf pieces hp => ?_, fun pieces => ?_,
    fun payloads frames hf lengthBytes rest hfo hb pieces hp => ?_⟩
  · obtain ⟨ha, hfl⟩ := frames_of_encoded hf
    obtain ⟨decoder, out, hou, hd⟩ := decoded_new.feedPieces pieces
    rw [nil_append, nil_append, hp, hfl, ← append_nil (framesOf _)] at hd
    obtain ⟨more, rfl, hm⟩ := hd.drop_frames ha
    obtain ⟨rfl, rfl⟩ := hm.short (by decide)
    rw [hou, append_nil]
    rfl
  · obtain ⟨decoder, out, hou, hd⟩ := decoded_new.feedPieces pieces
    rw [hou]
    exact hd.retained
  · obtain ⟨ha, hfl⟩ := frames_of_encoded hf
    obtain ⟨decoder, out, hou, hd⟩ := decoded_new.feedPieces pieces
    rw [nil_append, nil_append] at hd
    rw [hou]
    rw [hfl] at hp ⊢
    split
    · rename_i hs
      exact hd.before_refusal ha hfo hb hp hs
    · rename_i hl
      have hsp : framesOf payloads ++ lengthBytes <+: pieces.flatten := by
        refine prefix_of_prefix_length_le ⟨rest, by simp⟩ hp ?_
        rw [length_append]
        omega
      obtain ⟨rest', hr'⟩ := hsp
      rw [← hr', append_assoc] at hd
      obtain ⟨more, rfl, hm⟩ := hd.drop_frames ha
      obtain ⟨rfl, hin⟩ := hm.refuses hfo hb
      exact ⟨append_nil _, fun input => feed_of_invalid hin input⟩

/-- Two frames in three pieces, the second of which ends inside a length. -/
theorem two_frames_in_three_pieces :
    new.feedPieces [[0, 0, 0, 2, 7], [8, 0, 0], [0, 1, 9]] =
      (.new, [[7, 8], [9]]) :=
  frames_decoded_in_any_pieces.1 [[7, 8], [9]] [[0, 0, 0, 2, 7, 8], [0, 0, 0, 1, 9]]
    (.cons rfl (.cons rfl .nil)) [[0, 0, 0, 2, 7], [8, 0, 0], [0, 1, 9]] rfl

end MacWorker.Controller
