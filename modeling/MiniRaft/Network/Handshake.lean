import MiniRaft.Codec.Frames
import MiniRaft.Stream.Pull

/-!
# A connection, byte by byte

`handle_conn` reads the first message of a connection to learn who is at the other end, and hands
the connection over to a reader that forwards everything after it.  Bytes arrive in chunks of any
size: the first chunk may end within the greeting, or hold messages behind it, which stay in the
buffer of the `Framed` that the reader goes on with.

After a frame that could not be decoded a `Framed` yields `None`, as at the end of the stream, so
the reader ends there, whatever it means to skip.

* `handleConn` : what the bytes that have arrived come to.
* `handleConn_eq` : however they are cut, it depends on the frames in them up to the first that
  cannot be decoded.
* `handled` : what messages come to.
* `handleConn_round_trip` : however the bytes are cut, they come to what the messages do that have
  arrived completely.
-/

namespace MiniRaft

variable {ε : Type}

/-- What the first message of a connection comes to, within five seconds. -/
inductive Awaited (ε : Type)
  | item (result : Except (IoError ε) Message)
  /-- The other end has closed the connection. -/
  | closed
  | elapsed

/-- The errors of a handshake. -/
inductive HandshakeError (ε : Type)
  | failedToReceive (e : IoError ε)
  | timedOut
  | unexpectedMessageType
  deriving DecidableEq, Repr

/-- `read_hello_response`. -/
def readHelloResponse : Awaited ε → Except (HandshakeError ε) (Option Message)
  | .item (.ok msg) => .ok (some msg)
  | .item (.error e) => .error (.failedToReceive e)
  | .closed => .ok none
  | .elapsed => .error .timedOut

/-- `perform_handshake`, after the greeting has been sent. -/
def performHandshake (awaited : Awaited ε) : Except (HandshakeError ε) (Option Id) :=
  match readHelloResponse awaited with
  | .error e => .error e
  | .ok (some (.hello id)) => .ok (some (.peer id))
  | .ok (some (.helloClient id)) => .ok (some (.client id))
  | .ok (some _) => .error .unexpectedMessageType
  | .ok none => .ok none

/-- What the calls of `next` on a `Framed` return, where the decoder has these results: there is a
`None` behind an error. -/
def yielded : List (Except (IoError ε) Message) → List (Option (Except (IoError ε) Message))
  | [] => []
  | .ok msg :: results => some (.ok msg) :: yielded results
  | .error e :: results => some (.error e) :: none :: yielded results

/-- `framed_reader`, over what `next` returns: an error is skipped, and `None` ends the loop. -/
def framedReader (id : Id) : List (Option (Except (IoError ε) Message)) → List Incoming
  | [] => []
  | none :: _ => []
  | some (.ok msg) :: items => ⟨id, msg⟩ :: framedReader id items
  | some (.error _) :: items => framedReader id items

/-- What has become of a connection. -/
inductive Connection
  /-- There is no whole message yet. -/
  | waiting
  /-- The handshake has failed. -/
  | refused
  /-- The other end is registered as `id`, and `forwarded` have been sent to the server. -/
  | identified (id : Id) (forwarded : List Incoming)
  deriving DecidableEq, Repr

/-- `handle_conn`, when the chunks have arrived in time. -/
def handleConn (serde : SerdeJson ε) (chunks : List Bytes) : Connection :=
  match (Codec.decoder serde).pull [] chunks with
  | none => .waiting
  | some (first, buf, later) =>
    match performHandshake (.item first) with
    | .ok (some id) =>
      .identified id (framedReader id (yielded ((Codec.decoder serde).feed [] (buf :: later)).1))
    | .ok none => .refused
    | .error _ => .refused

/-- Whom a message introduces, as the first of a connection. -/
def Message.introduces : Message → Option Id
  | .hello id => some (.peer id)
  | .helloClient id => some (.client id)
  | _ => none

/-- The messages before the first frame that could not be decoded. -/
def upToError : List (Except (IoError ε) Message) → List Message
  | .ok msg :: results => msg :: upToError results
  | _ => []

/-- What messages come to. -/
def handled : List Message → Connection
  | [] => .waiting
  | first :: msgs =>
    match first.introduces with
    | some id => .identified id (msgs.map fun msg => ⟨id, msg⟩)
    | none => .refused

/-- What the results of the decoder come to. -/
def settled : List (Except (IoError ε) Message) → Connection
  | [] => .waiting
  | .error _ :: _ => .refused
  | .ok first :: results => handled (first :: upToError results)

theorem performHandshake_ok (msg : Message) : performHandshake (.item (.ok msg) : Awaited ε) =
    match msg.introduces with
    | some id => .ok (some id)
    | none => .error .unexpectedMessageType := by
  cases msg <;> rfl

theorem framedReader_yielded (id : Id) (results : List (Except (IoError ε) Message)) :
    framedReader id (yielded results) = (upToError results).map fun msg => ⟨id, msg⟩ := by
  induction results with
  | nil => rfl
  | cons result results ih =>
    cases result with
    | error => rfl
    | ok msg => rw [yielded, framedReader, ih, upToError, List.map_cons]

theorem upToError_map_ok (msgs : List Message) :
    upToError (msgs.map fun msg => (.ok msg : Except (IoError ε) Message)) = msgs := by
  induction msgs with
  | nil => rfl
  | cons msg msgs ih => rw [List.map_cons, upToError, ih]

/-- **What is found in the bytes decides** what becomes of the connection, however they are cut, and
nothing is forwarded from behind a frame that could not be decoded. -/
theorem handleConn_eq (serde : SerdeJson ε) (chunks : List Bytes) :
    handleConn serde chunks = settled ((Codec.decoder serde).drain chunks.flatten).1 := by
  unfold handleConn
  split
  · rename_i hpull
    have hdrain := Incremental.drain_of_pull_eq_none hpull
    rw [List.nil_append] at hdrain
    rw [hdrain]
    rfl
  · rename_i first buf later hpull
    have hdrain := Incremental.drain_of_pull hpull
    rw [List.nil_append] at hdrain
    rw [hdrain, Incremental.feed_nil_eq, List.flatten_cons]
    simp only [framedReader_yielded]
    cases first with
    | error => rfl
    | ok msg =>
      rw [performHandshake_ok, settled, handled]
      cases msg.introduces <;> rfl

theorem handleConn_of_drain {serde : SerdeJson ε} {chunks : List Bytes} {msgs : List Message}
    (h : ((Codec.decoder serde).drain chunks.flatten).1 = msgs.map .ok) :
    handleConn serde chunks = handled msgs := by
  rw [handleConn_eq, h]
  cases msgs with
  | nil => rfl
  | cons first msgs => rw [List.map_cons, settled, upToError_map_ok]

/-- A frame that cannot be decoded is not skipped: the message behind it is never forwarded. -/
example : framedReader (.peer 1) (yielded [.error (⟨.invalidData, ()⟩ : IoError Unit),
    .ok (.requestVote ⟨1, 1, -1, 0⟩)]) = [] := by
  decide

/-- **Round trip.**  Of messages that are encoded and sent over a connection, some first part
arrives, in chunks of any sizes.  The receiving end makes of it what it makes of the list of those
messages that have arrived completely: the first one introduces the other end, and the others are
forwarded in its name, in order.  None is lost in the buffer of the handshake, and none is forwarded
before all of it has arrived: there are `n` of them, as many as have. -/
theorem handleConn_round_trip {serde : SerdeJson ε}
    (hserde : ∀ m payload, serde.toVec m = .ok payload → serde.fromSlice payload = .ok m)
    {msgs : List Message}
    (hmsgs : ∀ m ∈ msgs, ∃ payload, serde.toVec m = .ok payload ∧ payload.length < 2 ^ 32) :
    ∃ bytes, Codec.encodeAll serde msgs [] = .ok bytes ∧
      ∀ chunks : List Bytes, chunks.flatten <+: bytes → ∃ n ≤ msgs.length,
        handleConn serde chunks = handled (msgs.take n) ∧
        (∃ part, Codec.encodeAll serde (msgs.take n) [] = .ok part ∧ part <+: chunks.flatten) ∧
        ∀ m ≤ msgs.length, ∀ part, Codec.encodeAll serde (msgs.take m) [] = .ok part →
          part <+: chunks.flatten → m ≤ n := by
  choose! payload hvec hlen using hmsgs
  have hcode : ∀ m ∈ msgs, ∀ more, (Codec.decoder serde).step (Codec.frame (payload m) ++ more) =
      some (.ok m, more) := by
    intro m hm more
    have hpayload : Codec.decodePayload serde (payload m) = .ok m := by
      rw [Codec.decodePayload, hserde m _ (hvec m hm)]
    rw [← hpayload]
    exact Codec.decodeNext_frame serde (hlen m hm) more
  refine ⟨_, Codec.encodeAll_eq (fun m hm => ⟨hvec m hm, hlen m hm⟩) [], fun chunks hchunks => ?_⟩
  rw [List.nil_append] at hchunks
  have hencode : ∀ m, Codec.encodeAll serde (msgs.take m) [] =
      .ok ((msgs.take m).flatMap fun x => Codec.frame (payload x)) := by
    intro m
    have hsome : ∀ x ∈ msgs.take m, serde.toVec x = .ok (payload x) ∧ (payload x).length < 2 ^ 32 :=
      fun x hx => ⟨hvec x (List.mem_of_mem_take hx), hlen x (List.mem_of_mem_take hx)⟩
    exact Codec.encodeAll_eq hsome []
  obtain ⟨n, hn, hdrain, harrived, hlast⟩ := Incremental.drain_of_truncated hcode hchunks
  refine ⟨n, hn, handleConn_of_drain hdrain, ⟨_, hencode n, harrived⟩,
    fun m hm part hpart hpre => ?_⟩
  rw [hencode m] at hpart
  cases hpart
  exact hlast m hm hpre

/-- A greeting and a second one, which came in with the rest of the first. -/
theorem handleConn_round_trip_greetings :
    ∃ bytes, Codec.encodeAll Codec.helloSerde [.hello 1, .hello 1] [] = .ok bytes ∧
      handleConn Codec.helloSerde [bytes.take 2, bytes.drop 2] =
        .identified (.peer 1) [⟨.peer 1, .hello 1⟩] := by
  have hserde : ∀ m payload, Codec.helloSerde.toVec m = .ok payload →
      Codec.helloSerde.fromSlice payload = .ok m := by
    intro m payload h
    simp only [Codec.helloSerde] at h
    split_ifs at h with hm
    cases h
    simp [Codec.helloSerde, hm]
  have hmsgs : ∀ m ∈ [Message.hello 1, .hello 1], ∃ payload,
      Codec.helloSerde.toVec m = .ok payload ∧ payload.length < 2 ^ 32 := by
    intro m hm
    have hm : m = .hello 1 := by simpa using hm
    exact ⟨Codec.helloJson, by rw [hm]; rfl, by decide⟩
  obtain ⟨bytes, hbytes, hchunks⟩ := handleConn_round_trip hserde hmsgs
  have hall : [bytes.take 2, bytes.drop 2].flatten = bytes := by simp
  obtain ⟨n, hn, hconn, -, hwhole⟩ :=
    hchunks [bytes.take 2, bytes.drop 2] ⟨[], by rw [hall, List.append_nil]⟩
  have hn : n = 2 :=
    Nat.le_antisymm hn (hwhole 2 (Nat.le_refl _) bytes hbytes ⟨[], by rw [hall, List.append_nil]⟩)
  subst hn
  exact ⟨bytes, hbytes, hconn⟩

end MiniRaft
