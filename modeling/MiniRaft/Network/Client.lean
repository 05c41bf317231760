import MiniRaft.Network.Handshake

/-!
# The client

`tools/raft_client.py` speaks the protocol of the framed codec in another language: it reads the
greeting of the node, introduces itself, asks for a `Set` and waits for one answer.  A call of
`recv` returns what is there, so that `recv_exact` has to call it again until it has all it wants.

The `json` module of Python is a parameter: `PyJson` holds its two functions and the objects that
the client sends.

* `RaftClient.recvMsg_frame` : a frame of the codec is read, whatever the calls of `recv` return.
* `RaftClient.conversation` : client and node understand each other.
-/

namespace MiniRaft

/-- `json.dumps(..).encode()` and `json.loads`, `none` being an exception, and the objects that are
sent. -/
structure PyJson (J : Type) where
  dumps : J → Bytes
  loads : Bytes → Option J
  helloClientType (clientId : ClientId) : J
  clientRequestType (key value : String) (clientId requestId : ℕ) : J

namespace RaftClient

variable {ε J : Type}

/-- `send_msg`: the bytes sent; `struct.pack` raises an exception if the length is no `u32`. -/
def sendMsg (payload : Bytes) : Option Bytes :=
  if payload.length < 2 ^ 32 then some (putU32 payload.length ++ payload) else none

/-- `recv_exact`, with `buf` read already.  The calls of `recv` return at most one byte more than
`sizes` says, and there are no more of them than `sizes` before the time is up.  The result comes
with what is left of `sizes` and of the stream. -/
def recvExact (n : ℕ) : Bytes → List ℕ → Bytes → Option (Bytes × List ℕ × Bytes)
  | buf, [], stream => if n ≤ buf.length then some (buf, [], stream) else none
  | buf, size :: sizes, stream =>
    if n ≤ buf.length then some (buf, size :: sizes, stream)
    else
      let count := min (n - buf.length) (size + 1)
      if stream.isEmpty then none
      else recvExact n (buf ++ stream.take count) sizes (stream.drop count)

/-- `recv_msg`, up to `json.loads`. -/
def recvMsg (sizes : List ℕ) (stream : Bytes) : Option (Bytes × List ℕ × Bytes) :=
  (recvExact 4 [] sizes stream).bind fun hdr => recvExact (fromBeBytes hdr.1) [] hdr.2.1 hdr.2.2

/-- `try_node`: the response and the bytes that have been sent. -/
def tryNode (py : PyJson J) (key value : String) (clientId requestId : ℕ) (sizes : List ℕ)
    (stream : Bytes) : Option (J × Bytes) :=
  (recvMsg sizes stream).bind fun hello => (py.loads hello.1).bind fun _ =>
    (sendMsg (py.dumps (py.helloClientType clientId))).bind fun introduction =>
      (sendMsg (py.dumps (py.clientRequestType key value clientId requestId))).bind fun request =>
        (recvMsg hello.2.1 hello.2.2).bind fun resp =>
          (py.loads resp.1).map fun resp => (resp, introduction ++ request)

/-- **`recv_exact`** returns the next bytes of the stream, if there are enough of them. -/
theorem recvExact_eq (n : ℕ) (buf : Bytes) (sizes : List ℕ) (stream : Bytes)
    (hstream : n ≤ buf.length + stream.length) (hsizes : n ≤ buf.length + sizes.length) :
    ∃ sizes', recvExact n buf sizes stream =
      some (buf ++ stream.take (n - buf.length), sizes', stream.drop (n - buf.length)) ∧
        sizes.length ≤ sizes'.length + (n - buf.length) := by
  induction sizes generalizing buf stream with
  | nil =>
    have hn : n ≤ buf.length := hsizes
    refine ⟨[], ?_, by simp⟩
    rw [recvExact, if_pos hn, Nat.sub_eq_zero_of_le hn, List.take_zero, List.drop_zero,
      List.append_nil]
  | cons size sizes ih =>
    unfold recvExact
    split_ifs with hn hempty
    · refine ⟨size :: sizes, ?_, Nat.le_add_right _ _⟩
      rw [Nat.sub_eq_zero_of_le hn, List.take_zero, List.drop_zero, List.append_nil]
    · rw [List.isEmpty_iff.1 hempty, List.length_nil] at hstream
      omega
    · rw [List.length_cons] at hsizes
      obtain ⟨count, hcount⟩ : ∃ count, count = min (n - buf.length) (size + 1) := ⟨_, rfl⟩
      have hbuf : (buf ++ stream.take count).length = buf.length + count := by
        rw [List.length_append, List.length_take]
        omega
      have hrest : n - buf.length = count + (n - (buf.length + count)) := by omega
      obtain ⟨sizes', hrecv, hleft⟩ := ih (buf ++ stream.take count)
        (stream.drop count) (by rw [hbuf, List.length_drop]; omega) (by rw [hbuf]; omega)
      refine ⟨sizes', ?_, ?_⟩
      · rw [← hcount, hrecv, hbuf, hrest, List.take_add, List.drop_drop, List.append_assoc]
      · rw [hbuf] at hleft
        rw [List.length_cons]
        omega

/-- **`recv_msg`** reads a frame of the codec, however its bytes come in. -/
theorem recvMsg_frame {payload : Bytes} (h : payload.length < 2 ^ 32) (rest : Bytes)
    (sizes : List ℕ)
    (hsizes : (Codec.frame payload).length ≤ sizes.length) :
    ∃ sizes', recvMsg sizes (Codec.frame payload ++ rest) = some (payload, sizes', rest) ∧
      sizes.length ≤ sizes'.length + (Codec.frame payload).length := by
  rw [Codec.length_frame] at hsizes ⊢
  have hframe : Codec.frame payload ++ rest = putU32 payload.length ++ (payload ++ rest) :=
    List.append_assoc _ _ _
  have hlen := Codec.length_putU32 payload.length
  obtain ⟨sizes₁, hhdr, hleft₁⟩ := recvExact_eq 4 [] sizes
    (putU32 payload.length ++ (payload ++ rest))
    (by rw [List.length_append, hlen]; omega) (by rw [List.length_nil]; omega)
  rw [List.length_nil, Nat.sub_zero] at hhdr hleft₁
  obtain ⟨sizes₂, hpayload, hleft₂⟩ := recvExact_eq payload.length [] sizes₁
    (payload ++ rest) (by rw [List.length_append]; omega)
    (by rw [List.length_nil]; omega)
  rw [List.length_nil, Nat.sub_zero] at hpayload hleft₂
  refine ⟨sizes₂, ?_, by omega⟩
  rw [recvMsg, hframe, hhdr, Option.bind_some]
  dsimp only
  rw [List.nil_append, List.take_left' hlen, List.drop_left' hlen, Codec.fromBeBytes_putU32 h,
    hpayload,
    List.nil_append, List.take_left' rfl, List.drop_left' rfl]

/-- **The conversation.**  Where each of the two JSON libraries reads what the other one writes, and
no message takes 4 GiB, the client makes of the greeting and the response of a node what
`json.loads` makes of the response, whatever the calls of `recv` return; and the node, however the
bytes of the client are cut, registers the client and forwards its request, and nothing else. -/
theorem conversation {serde : SerdeJson ε} {py : PyJson J} {node clientId requestId : ℕ}
    {key value : String} {response : ClientResponse} {hello answer : Bytes}
    (hhello : serde.toVec (.hello node) = .ok hello) (hloads : (py.loads hello).isSome = true)
    (hanswer : serde.toVec (.clientResponse response) = .ok answer)
    (hintroduces : serde.fromSlice (py.dumps (py.helloClientType clientId)) =
      .ok (.helloClient clientId))
    (hasks : serde.fromSlice (py.dumps (py.clientRequestType key value clientId requestId)) =
      .ok (.clientRequest ⟨.set key value, clientId, requestId⟩))
    (hlengths : ∀ payload ∈ [hello, answer, py.dumps (py.helloClientType clientId),
      py.dumps (py.clientRequestType key value clientId requestId)], payload.length < 2 ^ 32) :
    ∃ stream sent, Codec.encodeAll serde [.hello node, .clientResponse response] [] = .ok stream ∧
      (∀ sizes : List ℕ, stream.length ≤ sizes.length →
        tryNode py key value clientId requestId sizes stream =
          (py.loads answer).map fun resp => (resp, sent)) ∧
      ∀ chunks : List Bytes, chunks.flatten = sent → handleConn serde chunks =
        .identified (.client clientId)
          [⟨.client clientId, .clientRequest ⟨.set key value, clientId, requestId⟩⟩] := by
  let introduction := py.dumps (py.helloClientType clientId)
  let request := py.dumps (py.clientRequestType key value clientId requestId)
  have hhelloLen : hello.length < 2 ^ 32 := hlengths hello (by simp)
  have hanswerLen : answer.length < 2 ^ 32 := hlengths answer (by simp)
  have hintroductionLen : introduction.length < 2 ^ 32 :=
    hlengths introduction (by simp [introduction])
  have hrequestLen : request.length < 2 ^ 32 := hlengths request (by simp [request])
  refine ⟨Codec.frame hello ++ Codec.frame answer, Codec.frame introduction ++ Codec.frame request,
    ?_, fun sizes hsizes => ?_, fun chunks hchunks => ?_⟩
  · rw [Codec.encodeAll, Codec.encode_eq hhello hhelloLen]
    dsimp only
    rw [Codec.encodeAll, Codec.encode_eq hanswer hanswerLen]
    rfl
  · rw [List.length_append] at hsizes
    obtain ⟨sizes₁, hread₁, hleft⟩ := recvMsg_frame hhelloLen (Codec.frame answer) sizes (by omega)
    obtain ⟨sizes₂, hread₂, -⟩ := recvMsg_frame hanswerLen [] sizes₁ (by omega)
    rw [List.append_nil] at hread₂
    obtain ⟨greeting, hgreeting⟩ := Option.isSome_iff_exists.1 hloads
    have hsend : ∀ payload : Bytes, payload.length < 2 ^ 32 →
        sendMsg payload = some (Codec.frame payload) := fun _ hlen => if_pos hlen
    rw [tryNode, hread₁, Option.bind_some, hgreeting, Option.bind_some, hsend _ hintroductionLen,
      Option.bind_some, hsend _ hrequestLen, Option.bind_some, hread₂, Option.bind_some]
  · have hpayloads : ∀ payload ∈ [introduction, request], ∀ more,
        (Codec.decoder serde).step (Codec.frame payload ++ more) =
          some (Codec.decodePayload serde payload, more) := by
      intro payload hmem more
      exact Codec.decodeNext_frame serde (hlengths payload (by
        rcases List.mem_pair.1 hmem with rfl | rfl
        · simp [introduction]
        · simp [request])) more
    have hdrain := Incremental.drain_flatMap hpayloads
    have hsent : [introduction, request].flatMap Codec.frame = chunks.flatten := by
      rw [hchunks]
      simp
    rw [hsent] at hdrain
    have hmsgs : handleConn serde chunks = handled [.helloClient clientId,
        .clientRequest ⟨.set key value, clientId, requestId⟩] := by
      refine handleConn_of_drain ?_
      rw [hdrain]
      simp only [List.map_cons, List.map_nil, Codec.decodePayload, introduction, request,
        hintroduces,
        hasks]
    rw [hmsgs]
    rfl

/-- A text in ASCII. -/
def ascii (text : String) : Bytes := text.toList.map fun c => UInt8.ofNat c.toNat

/-- `json` as far as client 7 and its request 1 go: objects are their texts. -/
def setJson : PyJson Bytes where
  dumps text := text
  loads text := some text
  helloClientType _ := ascii "\x7b\"HelloClientType\": \x7b\"id\": 7\x7d\x7d"
  clientRequestType _ _ _ _ := ascii ("\x7b\"ClientRequestType\": \x7b\"command\": \x7b\"Set\": " ++
    "\x7b\"key\": \"x\", \"value\": \"1\"\x7d\x7d, \"client_id\": 7, \"request_id\": 1\x7d\x7d")

/-- The JSON of the answer. -/
def setAnswer : Bytes :=
  ascii "\x7b\"ClientResponseType\":\x7b\"SetSuccess\":\x7b\"request_id\":1\x7d\x7d\x7d"

/-- `serde_json` as far as this conversation goes. -/
def setSerde : SerdeJson String where
  toVec m :=
    if m = .hello 1 then .ok Codec.helloJson
    else if m = .clientResponse (.setSuccess 1) then .ok setAnswer
    else .error "not in this conversation"
  fromSlice payload :=
    if payload = setJson.helloClientType 7 then .ok (.helloClient 7)
    else if payload = setJson.clientRequestType "x" "1" 7 1 then
      .ok (.clientRequest ⟨.set "x" "1", 7, 1⟩)
    else .error "expected value at line 1 column 1"

/-- The client receives byte by byte, and its first five bytes come in before the others. -/
theorem conversation_set : ∃ stream sent : Bytes,
    tryNode setJson "x" "1" 7 1 (List.replicate stream.length 0) stream = some (setAnswer, sent) ∧
      handleConn setSerde [sent.take 5, sent.drop 5] =
        .identified (.client 7) [⟨.client 7, .clientRequest ⟨.set "x" "1", 7, 1⟩⟩] := by
  obtain ⟨stream, sent, -, hclient, hnode⟩ := @conversation String Bytes setSerde setJson 1 7 1
    "x" "1" (.setSuccess 1) Codec.helloJson setAnswer rfl rfl rfl rfl rfl (by decide)
  exact ⟨stream, sent, hclient _ (by simp), hnode _ (by simp)⟩

end RaftClient

end MiniRaft
