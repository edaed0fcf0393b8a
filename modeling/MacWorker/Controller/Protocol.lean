import MacWorker.Base
import MacWorker.Lib.Json

/-! # Controller requests

A request arrives as a JSON payload. The decoder refuses repeated member names,
so the payload is one value; the digest that identifies the request is the
SHA-256 of the canonical text of protocol version, command and body. The
payload is given here as its syntax tree, with its numbers as they are written
and the members of its objects in the order in which the text lists them. -/
namespace MacWorker.Controller
open Fallible Json List

def protocolVersion : Nat := 7

def transport (message : String) : WorkerError :=
  .protocol ("CONTROLLER_TRANSPORT: " ++ message)

def incompatible : WorkerError :=
  .protocol "INCOMPATIBLE_PROTOCOL: controller RPC requires protocol 7"

def invalid (message : String) : WorkerError := .protocol ("INVALID_REQUEST: " ++ message)

structure RequestId where
  text : String
  simple : isLowerHex text 32 = true
  deriving DecidableEq

def validateRequestId (value : String) : Except WorkerError RequestId :=
  if h : isLowerHex value 32 = true then .ok ⟨value, h⟩
  else .error (invalid "controller RPC request_id must be a lowercase simple UUID")

/-- The characters of Unicode category `Cc`. -/
def isControl (c : Char) : Bool := c.toNat < 32 || (127 ≤ c.toNat && c.toNat < 160)

def validateCommand (value : String) : Except WorkerError Unit :=
  ensure (bytes value ≠ [] ∧ (bytes value).length ≤ 128 ∧ value.toList.any isControl = false)
    (invalid "controller RPC command is invalid")

/-! ## Decoding -/

/-- The digest, and what the JSON reader makes of the text of a number. -/
structure Codec where
  sha256 : String → String
  number : Number → Option Number

def duplicateKeys : WorkerError := invalid "controller RPC request contained duplicate keys"

def notJson : WorkerError := transport "controller RPC frame was not JSON"

/-- The reader opens 127 nested containers. -/
def payloadDepth : Nat := 127

section
variable (codec : Codec)

mutual

/-- A number is what the reader makes of it; without an answer it is not finite. -/
def deserializeUnique : Nat → Value → Except WorkerError Value
  | 0, .arr _ | 0, .obj _ => .error notJson
  | depth + 1, .arr items => do return .arr (← deserializeItems depth items)
  | depth + 1, .obj members => do return .obj (← deserializeMembers depth members [])
  | _, .null => .ok .null
  | _, .bool b => .ok (.bool b)
  | _, .num n => do
    match codec.number n with
    | some number => return .num number
    | none => .error notJson
  | _, .str s => .ok (.str s)

def deserializeItems : Nat → List Value → Except WorkerError (List Value)
  | _, [] => .ok []
  | depth, v :: vs => do
    let value ← deserializeUnique depth v
    return value :: (← deserializeItems depth vs)

/-- `object` holds the members read so far. -/
def deserializeMembers : Nat → List (String × Value) → List (String × Value) →
    Except WorkerError (List (String × Value))
  | _, [], object => .ok object
  | depth, (key, v) :: ms, object => do
    let value ← deserializeUnique depth v
    ensure (key ∉ object.map Prod.fst) duplicateKeys
    deserializeMembers depth ms (object ++ [(key, value)])

end

def decodeJsonValue (payload : Value) : Except WorkerError Value :=
  deserializeUnique codec payloadDepth payload

mutual

/-- What is read has no repeated names, neither as written nor as read. -/
theorem deserializeUnique_unique (depth : Nat) (v w : Value)
    (h : deserializeUnique codec depth v = .ok w) : UniqueNames v ∧ UniqueNames w := by
  match depth, v with
  | _, .null => rw [deserializeUnique] at h; cases h; simp [UniqueNames]
  | _, .bool b => rw [deserializeUnique] at h; cases h; simp [UniqueNames]
  | _, .num n =>
    rw [deserializeUnique] at h
    split at h
    · cases h; simp [UniqueNames]
    · cases h
  | _, .str s => rw [deserializeUnique] at h; cases h; simp [UniqueNames]
  | 0, .arr items => cases h
  | depth + 1, .arr items =>
    rw [deserializeUnique] at h
    obtain ⟨ws, hws, h⟩ := of_bind h
    cases h
    simp only [UniqueNames]
    exact deserializeItems_unique depth items ws hws
  | 0, .obj members => cases h
  | depth + 1, .obj members =>
    rw [deserializeUnique] at h
    obtain ⟨result, hr, h⟩ := of_bind h
    cases h
    obtain ⟨read, rfl, hn, hnd, -, hu, hur⟩ :=
      deserializeMembers_unique depth members [] result hr
    simp only [UniqueNames, hn]
    exact ⟨⟨hnd, hu⟩, hnd, hur⟩

theorem deserializeItems_unique (depth : Nat) (vs ws : List Value)
    (h : deserializeItems codec depth vs = .ok ws) : UniqueItems vs ∧ UniqueItems ws := by
  match vs with
  | [] => cases h; simp [UniqueItems]
  | v :: vs =>
    rw [deserializeItems] at h
    obtain ⟨w, hw, h⟩ := of_bind h
    obtain ⟨us, hus, h⟩ := of_bind h
    cases h
    obtain ⟨hv, hw⟩ := deserializeUnique_unique depth v w hw
    obtain ⟨hvs, hus⟩ := deserializeItems_unique depth vs us hus
    simp only [UniqueItems]
    exact ⟨⟨hv, hvs⟩, hw, hus⟩

theorem deserializeMembers_unique (depth : Nat) (ms object result : List (String × Value))
    (h : deserializeMembers codec depth ms object = .ok result) :
    ∃ read, result = object ++ read ∧ read.map Prod.fst = ms.map Prod.fst ∧
      (ms.map Prod.fst).Nodup ∧ (ms.map Prod.fst).Disjoint (object.map Prod.fst) ∧
      UniqueMembers ms ∧ UniqueMembers read := by
  match ms with
  | [] => cases h; exact ⟨[], by simp [UniqueMembers]⟩
  | (key, v) :: ms =>
    rw [deserializeMembers] at h
    obtain ⟨w, hw, h⟩ := of_bind h
    rw [then_eq_ok, ensure_eq_ok] at h
    obtain ⟨hv, hw⟩ := deserializeUnique_unique depth v w hw
    obtain ⟨read, rfl, hn, hnd, hd, hu, hur⟩ := deserializeMembers_unique depth ms _ _ h.2
    simp only [map_append, map_cons, map_nil, disjoint_append_right, disjoint_singleton] at hd
    refine ⟨(key, w) :: read, by simp, by simp [hn], nodup_cons.mpr ⟨hd.2, hnd⟩,
      disjoint_cons_left.mpr ⟨h.1, hd.1⟩, ?_⟩
    simp only [UniqueMembers]
    exact ⟨⟨hv, hu⟩, hw, hur⟩

end

variable {codec}

/-- The decoder accepts only payloads without repeated names, and so is what it returns. -/
theorem decodeJsonValue_unique {payload value} (h : decodeJsonValue codec payload = .ok value) :
    UniqueNames payload ∧ UniqueNames value :=
  deserializeUnique_unique codec payloadDepth payload value h

end

/-! ## Requests -/

structure WireRequest where
  protocolVersion : Nat
  (requestId command : String)
  body : Value

def requireString (value : Value) (name : String) : Except WorkerError String :=
  match value.get name with
  | some (.str s) => .ok s
  | _ => .error (invalid "controller RPC request is invalid")

/-- The frame holds its four members and at most an ignored digest. -/
def WireRequest.fromValue (value : Value) : Except WorkerError WireRequest := do
  let error := invalid "controller RPC request is invalid"
  let members ← match value with
    | .obj members => pure members
    | _ => .error error
  ensure (∀ name ∈ members.map Prod.fst, name ∈
    ["protocol_version", "request_id", "payload_sha256", "command", "body"]) error
  let protocolVersion ← match (value.get "protocol_version").bind Value.asU64 with
    | some version => if version < 2 ^ 32 then pure version else .error error
    | none => .error error
  let requestId ← requireString value "request_id"
  match value.get "payload_sha256" with
  | none | some .null | some (.str _) => pure ()
  | _ => .error error
  let command ← requireString value "command"
  match value.get "body" with
  | some body => return { protocolVersion, requestId, command, body }
  | none => .error error

def identity (protocolVersion : Nat) (command : String) (body : Value) : Value :=
  .obj [("body", body), ("command", .str command),
    ("protocol_version", .num (.ofNat protocolVersion))]

section
variable (codec : Codec) (sha256 : String → String)

def canonicalRequestSha256 (protocolVersion : Nat) (command : String) (body : Value) : String :=
  sha256 (String.ofList (render (canonical (identity protocolVersion command body))))

/-- An accepted request. Its digest is computed from what it asks for. -/
structure ControllerRequest where
  requestId : RequestId
  command : String
  body : Value
  object : ∃ members, body = .obj members

def ControllerRequest.payloadSha256 (request : ControllerRequest) : String :=
  canonicalRequestSha256 sha256 Controller.protocolVersion request.command request.body

def parseRequest (payload : Value) : Except WorkerError ControllerRequest := do
  let value ← decodeJsonValue codec payload
  ensure ((value.get "protocol_version").bind Value.asU64 = some protocolVersion) incompatible
  let wire ← WireRequest.fromValue value
  ensure (wire.protocolVersion = protocolVersion) incompatible
  let requestId ← validateRequestId wire.requestId
  validateCommand wire.command
  match hbody : wire.body with
  | .obj members =>
    return { requestId, command := wire.command, body := wire.body, object := ⟨members, hbody⟩ }
  | _ => .error (invalid "controller RPC request body must be a JSON object")

theorem canonical_identity (protocolVersion : Nat) (command : String) (body : Value) :
    canonical (identity protocolVersion command body) =
      identity protocolVersion command (canonical body) := by
  simp only [identity, canonical, canonicalMembers, sortBy]
  congr 1
  refine mergeSort_of_pairwise ?_
  simp only [pairwise_cons, mem_cons, not_mem_nil, or_false, forall_eq_or_imp,
    forall_eq, decide_eq_true_eq, IsEmpty.forall_iff, implies_true, List.Pairwise.nil, and_true]
  decide

theorem identity_inj {protocolVersion c₁ c₂ b₁ b₂} :
    identity protocolVersion c₁ b₁ = identity protocolVersion c₂ b₂ ↔ c₁ = c₂ ∧ b₁ = b₂ := by
  simp only [identity, Value.obj.injEq, List.cons.injEq, Prod.mk.injEq, Value.str.injEq, true_and,
    and_true]
  exact and_comm

theorem canonicalRequestSha256_eq_iff (hs : Function.Injective sha256)
    {protocolVersion c₁ c₂ b₁ b₂} (hu : UniqueNames b₁) :
    canonicalRequestSha256 sha256 protocolVersion c₁ b₁ =
      canonicalRequestSha256 sha256 protocolVersion c₂ b₂ ↔ c₁ = c₂ ∧ Same b₁ b₂ := by
  unfold canonicalRequestSha256
  rw [hs.eq_iff, String.ofList_inj, render_injective.eq_iff, canonical_identity,
    canonical_identity, identity_inj, canonical_eq_iff b₁ b₂ hu]

/-- **The digest of a request is exact.** Two decoded bodies get the same digest
exactly when they come with the same command and are the same JSON value up to
the order of members, with numbers as the reader gives them back, and no payload
that repeats a member name, at any depth, is accepted. -/
theorem request_digest_exact (hsha : Function.Injective codec.sha256) :
    (∀ (c₁ c₂ : String) (payload₁ payload₂ b₁ b₂ : Value),
      decodeJsonValue codec payload₁ = .ok b₁ → decodeJsonValue codec payload₂ = .ok b₂ →
      (canonicalRequestSha256 codec.sha256 protocolVersion c₁ b₁ =
        canonicalRequestSha256 codec.sha256 protocolVersion c₂ b₂ ↔ c₁ = c₂ ∧ Same b₁ b₂)) ∧
    ∀ payload : Value, ¬ UniqueNames payload →
      ∃ error, parseRequest codec payload = .error error := by
  refine ⟨fun c₁ c₂ payload₁ payload₂ b₁ b₂ h₁ h₂ => ?_, fun payload hr => ?_⟩
  · exact canonicalRequestSha256_eq_iff codec.sha256 hsha (decodeJsonValue_unique h₁).2
  · cases hp : parseRequest codec payload with
    | error e => exact ⟨e, rfl⟩
    | ok request =>
      obtain ⟨value, hv, -⟩ := of_bind hp
      exact absurd (decodeJsonValue_unique hv).1 hr

def oneTwice : Number := ⟨"1.00".toList, by decide, List.all_eq_true.mp rfl⟩

/-- A reader that gives the number back with one digit. -/
def tidyCodec : Codec :=
  ⟨id, fun n =>
    some (if n = oneTwice then ⟨"1.0".toList, by decide, List.all_eq_true.mp rfl⟩ else n)⟩

/-- The members in another order, and a number that is written differently. -/
theorem request_digest_exact_members :
    let one : Value := .num ⟨"1.0".toList, by decide, List.all_eq_true.mp rfl⟩
    decodeJsonValue tidyCodec (.obj [("a", .null), ("b", .arr [.num oneTwice])]) =
        .ok (.obj [("a", .null), ("b", .arr [one])]) ∧
      canonicalRequestSha256 id protocolVersion "task.say"
        (.obj [("a", .null), ("b", .arr [one])]) =
        canonicalRequestSha256 id protocolVersion "task.say"
          (.obj [("b", .arr [one]), ("a", .null)]) := by
  intro one
  have ha : decodeJsonValue tidyCodec (.obj [("a", .null), ("b", .arr [.num oneTwice])]) =
      .ok (.obj [("a", .null), ("b", .arr [one])]) := by rfl
  have hb : decodeJsonValue tidyCodec (.obj [("b", .arr [one]), ("a", .null)]) =
      .ok (.obj [("b", .arr [one]), ("a", .null)]) := by rfl
  refine ⟨ha, ((request_digest_exact tidyCodec Function.injective_id).1 _ _ _ _ _ _ ha hb).mpr
    ⟨rfl, ?_⟩⟩
  simp only [Same]
  exact ⟨_, List.Perm.swap _ _ _, by simp [SameMembers, Same, SameItems, one]⟩

end

end MacWorker.Controller
