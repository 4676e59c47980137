import EmbeddedTemplate.Lib.Transition
import EmbeddedTemplate.Mqtt.Client

/-! What a client may do in one session with its broker, as a machine whose steps are the events of the client. It
says when each kind of packet may be sent, which answer belongs to which packet, which handlers are called for a
message, and what must have arrived before a connection, a subscription or another request counts as made. -/
namespace EmbeddedTemplate.Mqtt

open Transition

/-- What has been done about the packet that was received last, with the handlers that were called for it. -/
inductive Phase (η : Type) where
  | idle
  | handling (header : UInt8) (body : List UInt8) (calls : List (Event η))
  | broken

/-- The client as its broker and its application know it. A request that was sent is pending, with the type of
the packet that it waits for, if it waits. An identifier is fresh until a request has it. -/
structure Session (η : Type) where
  connected : Bool
  pinged : Bool
  id : ℕ
  fresh : Bool
  phase : Phase η
  pending : Option (List UInt8 × Option ℕ)
  handlers : List (List UInt8 × Option η)

/-- The type of the answer that a packet asks for, by its header. -/
def reply (header : UInt8) : Option ℕ :=
  if MQTTHeader.type header = publish then
    if MQTTHeader.qos header = 1 then some puback
    else if MQTTHeader.qos header = 2 then some pubrec
    else none
  else if MQTTHeader.type header = pubrec then some pubrel
  else none

def Published (header : UInt8) (body : List UInt8) (id : UInt16) (topic content : List UInt8) : Prop :=
  MQTTHeader.type header = publish ∧ topic.length < 2 ^ 16 ∧
    body = publishBody (MQTTHeader.qos header) id topic content

/-- A well-formed packet that asks for an answer with this identifier. -/
def Identified (header : UInt8) (body : List UInt8) (id : UInt16) : Prop :=
  (∃ topic content, Published header body id topic content) ∨
    MQTTHeader.type header = pubrec ∧ ∃ rest, body = int16 id.toNat ++ rest

def Takes (topicFilter topic : List UInt8) : Prop := topic = topicFilter ∨ isTopicMatched topicFilter topic = true

instance (topicFilter topic : List UInt8) : Decidable (Takes topicFilter topic) :=
  inferInstanceAs (Decidable (_ ∨ _))

variable {η : Type}

def due (handlers : List (List UInt8 × Option η)) (topic content : List UInt8) : List (Event η) :=
  handlers.filterMap fun h => if Takes h.1 topic then h.2.map fun fp => .delivered fp topic content else none

def Phase.Answered : Phase η → Prop
  | .idle => True
  | .handling header body _ => reply header = none ∨ ∀ id, ¬ Identified header body id
  | .broken => False

/-- The packet that was received last is of type `packetType`. -/
def Phase.Got (p : Phase η) (packetType : ℕ) : Prop :=
  ∃ header body calls, p = .handling header body calls ∧ MQTTHeader.type header = packetType

def Session.Served (s : Session η) : Prop :=
  ∀ header body calls, s.phase = .handling header body calls →
    ∀ id topic content, Published header body id topic content → calls = due s.handlers topic content

/-- Nothing is left to be done about the packet that was received last. -/
structure Session.Free (s : Session η) : Prop where
  served : s.Served
  answered : s.phase.Answered

def nextId (id : ℕ) : ℕ := if id = maxPacketId then 1 else id + 1

def QoS.answer : QoS → Option ℕ
  | .qos0 => none
  | .qos1 => some puback
  | .qos2 => some pubcomp

def subscribePacket (id : ℕ) (topicFilter : List UInt8) (qos : QoS) : List UInt8 :=
  Base128.frame (MQTTHeader.ofBits subscribe 0 1 0)
    (int16 (UInt16.ofNat id).toNat ++ requestsWire [(topicFilter, uchar qos.value)])

def unsubscribePacket (id : ℕ) (topicFilter : List UInt8) : List UInt8 :=
  Base128.frame (MQTTHeader.ofBits unsubscribe 0 1 0)
    (int16 (UInt16.ofNat id).toNat ++ lenStrings [topicFilter])

/-- A request with the identifier `id` where it has one, and the type of the packet that it waits for. -/
inductive Request (id : ℕ) : List UInt8 → Option ℕ → Prop
  | publish (qos : QoS) (retained : UInt8) (packetid : UInt16) (topic content : List UInt8)
      (hid : qos ≠ .qos0 → packetid = UInt16.ofNat id) :
      Request id (publishPacket 0 qos.value retained packetid topic content) qos.answer
  | subscribe (topicFilter : List UInt8) (qos : QoS) :
      Request id (subscribePacket id topicFilter qos) (some suback)
  | unsubscribe (topicFilter : List UInt8) : Request id (unsubscribePacket id topicFilter) (some unsuback)

/-- The request of a call whose end is noted, likewise. -/
inductive Asks (id : ℕ) : Finished → List UInt8 → Option ℕ → Prop
  | publish (qos : QoS) (retained : UInt8) (packetid : UInt16) (topic content : List UInt8)
      (hid : qos ≠ .qos0 → packetid = UInt16.ofNat id) :
      Asks id (.published topic qos) (publishPacket 0 qos.value retained packetid topic content) qos.answer
  | unsubscribe (topicFilter : List UInt8) :
      Asks id (.unsubscribed topicFilter) (unsubscribePacket id topicFilter) (some unsuback)

/-- A packet that carries an identifier of the client, by its header. -/
def Carries (packet : List UInt8) : Prop :=
  ∃ header ∈ packet.head?, MQTTHeader.type header = subscribe ∨ MQTTHeader.type header = unsubscribe ∨
    MQTTHeader.type header = publish ∧ 0 < MQTTHeader.qos header

instance (packet : List UInt8) : Decidable (Carries packet) :=
  inferInstanceAs (Decidable (∃ header ∈ packet.head?, _))

def Session.init : Session η := ⟨false, false, 1, false, .idle, none, []⟩

inductive Session.Step (s : Session η) : Event η → Session η → Prop
  | received (header : UInt8) (body : List UInt8) (hfree : s.Free) :
      Step s (.received header body) { s with
        phase := .handling header body []
        pinged := s.pinged && MQTTHeader.type header != pingresp }
  | delivered {header : UInt8} {body : List UInt8} {calls : List (Event η)} (fp : η) (topic payload : List UInt8)
      (hphase : s.phase = .handling header body calls) (htype : MQTTHeader.type header = publish)
      (hfp : ∃ topicFilter, (topicFilter, some fp) ∈ s.handlers ∧ Takes topicFilter topic)
      (hdue : ∀ id t content, Published header body id t content →
        calls ++ [.delivered fp topic payload] <+: due s.handlers t content) :
      Step s (.delivered fp topic payload)
        { s with phase := .handling header body (calls ++ [.delivered fp topic payload]) }
  | answered {header : UInt8} {body : List UInt8} {calls : List (Event η)} {packettype : ℕ} (id : UInt16)
      (complete : Bool) (hphase : s.phase = .handling header body calls) (hserved : s.Served)
      (hreply : reply header = some packettype) (hid : ∀ id', Identified header body id' → id = id') :
      Step s (.sent (ackPacket packettype 0 id) complete)
        { s with phase := if complete then .idle else .broken }
  | failed (hphase : s.phase ≠ .idle) (hserved : s.Served) : Step s .failed { s with phase := .idle }
  | numbered (hfree : s.Free) : Step s (.numbered (nextId s.id)) { s with id := nextId s.id, fresh := true }
  | connect {packet : List UInt8} (complete : Bool) (hfree : s.Free) (hconnected : s.connected = false)
      (hpacket : packet.head? = some (MQTTHeader.ofBits connect 0 0 0)) :
      Step s (.sent packet complete)
        { s with phase := .idle, pending := if complete then some (packet, some connack) else none }
  | request {packet : List UInt8} {awaited : Option ℕ} (complete : Bool) (hfree : s.Free)
      (hconnected : s.connected = true) (hrequest : Request s.id packet awaited)
      (hfresh : Carries packet → s.fresh = true) :
      Step s (.sent packet complete) { s with
        phase := .idle
        fresh := s.fresh && !decide (Carries packet)
        pending := if complete then some (packet, awaited) else none }
  | ping (complete : Bool) (hfree : s.Free) (hpinged : s.pinged = false) :
      Step s (.sent [MQTTHeader.ofBits pingreq 0 0 0, 0] complete) { s with pinged := complete }
  | disconnect (complete : Bool) (hfree : s.Free) :
      Step s (.sent [MQTTHeader.ofBits disconnect 0 0 0, 0] complete) s
  | accepted {packet : List UInt8} {header : UInt8} {body : List UInt8} {calls : List (Event η)}
      (hfree : s.Free) (hconnected : s.connected = false) (hpending : s.pending = some (packet, some connack))
      (hphase : s.phase = .handling header body calls) (htype : MQTTHeader.type header = connack)
      (hcode : body[1]? = some 0) :
      Step s .accepted { s with connected := true, pending := none }
  | registered {id : ℕ} {qos : QoS} (topicFilter : List UInt8) (fp : Option η) (hfree : s.Free)
      (hconnected : s.connected = true)
      (hpending : s.pending = some (subscribePacket id topicFilter qos, some suback))
      (hgot : s.phase.Got suback) (hroom : s.handlers.length < maxMessageHandlers) :
      Step s (.registered topicFilter fp) { s with
        pending := none
        handlers := s.handlers ++ [(topicFilter, fp)] }
  | completed {id : ℕ} {packet : List UInt8} {awaited : Option ℕ} (call : Finished) (hfree : s.Free)
      (hconnected : s.connected = true) (hpending : s.pending = some (packet, awaited))
      (hasks : Asks id call packet awaited)
      (hgot : ∀ packetType, awaited = some packetType → s.phase.Got packetType) :
      Step s (.completed call) { s with pending := none }
  | closed (hfree : s.Free) : Step s .closed { s with connected := false }

/-- The events `es` are a run of the machine. -/
def Session.Run (es : List (Event η)) (s : Session η) : Prop := Trace Session.Step Session.init es s

theorem Session.Free.congr {s s' : Session η} (h : s.Free) (hphase : s'.phase = s.phase)
    (hhandlers : s'.handlers = s.handlers) : s'.Free := by
  constructor
  · unfold Session.Served
    rw [hphase, hhandlers]
    exact h.served
  · rw [hphase]
    exact h.answered

theorem Session.free_of_idle {s : Session η} (h : s.phase = .idle) : s.Free := by
  refine ⟨fun header body calls hphase => ?_, ?_⟩
  · rw [h] at hphase
    cases hphase
  · rw [h]
    trivial

theorem Session.served_of_type {s : Session η} {header : UInt8} {body : List UInt8} {calls : List (Event η)}
    (hphase : s.phase = .handling header body calls) (htype : MQTTHeader.type header ≠ publish) : s.Served := by
  intro header' body' calls' hphase' id topic content hpublished
  rw [hphase] at hphase'
  obtain ⟨rfl, -, -⟩ := Phase.handling.inj hphase'
  exact absurd hpublished.1 htype

/-- The calls of a message that is handled, one by one. -/
theorem Session.deliver {s : Session η} {es ds calls : List (Event η)} {header : UInt8} {body : List UInt8}
    (h : Session.Run es { s with phase := .handling header body calls })
    (htype : MQTTHeader.type header = publish)
    (hds : ∀ d ∈ ds, ∃ fp topic payload topicFilter, d = .delivered fp topic payload ∧
      (topicFilter, some fp) ∈ s.handlers ∧ Takes topicFilter topic)
    (hdue : ∀ id topic content, Published header body id topic content →
      calls ++ ds <+: due s.handlers topic content) :
    Session.Run (es ++ ds) { s with phase := .handling header body (calls ++ ds) } := by
  induction ds generalizing es calls with
  | nil => rwa [List.append_nil, List.append_nil]
  | cons d ds ih =>
    obtain ⟨fp, topic, payload, topicFilter, rfl, hfp⟩ := hds _ List.mem_cons_self
    rw [List.append_cons] at hdue ⊢
    rw [List.append_cons calls]
    apply ih
    · refine Trace.snoc h (.delivered fp topic payload rfl htype ⟨topicFilter, hfp⟩ ?_)
      intro id t content hpublished
      exact (List.prefix_append _ _).trans (hdue id t content hpublished)
    · intro d hd
      exact hds d (List.mem_cons_of_mem _ hd)
    · exact hdue

end EmbeddedTemplate.Mqtt
