import EmbeddedTemplate.Lib.Hoare
import EmbeddedTemplate.Misc.Timer
import EmbeddedTemplate.Mqtt.Subscribe
import EmbeddedTemplate.Mqtt.Topic

/-! The client of `MQTTClient.c`, without `MQTT_TASK`. What is outside of it, the network, the clock, the handlers
and the variables that are read before they are written, is an environment that goes from state to state in any
way. A loop has so many rounds, and a function that runs out of them has not returned. -/
namespace EmbeddedTemplate.Mqtt

open ByteMem Hoare

def maxPacketId : ℕ := 65535
def maxMessageHandlers : ℕ := 5

def success : ℤ := 0
def failure : ℤ := -1

inductive QoS where
  | qos0
  | qos1
  | qos2
deriving DecidableEq

def QoS.value : QoS → ℤ
  | .qos0 => 0
  | .qos1 => 1
  | .qos2 => 2

/-- `struct MessageHandlers`. The filter is the string behind the pointer, which stays as it was registered. -/
structure MessageHandlers (η : Type) where
  topicFilter : Option (List UInt8)
  fp : Option η

structure HandlerTable (η : Type) where
  slots : List (MessageHandlers η)
  length_slots : slots.length = maxMessageHandlers

/-- `messageHandlers[i]` -/
def HandlerTable.get {η : Type} (t : HandlerTable η) (i : Fin maxMessageHandlers) : MessageHandlers η :=
  t.slots.get (i.cast t.length_slots.symm)

/-- `struct mqtt_client`. The network is in the environment. -/
structure Client (η : Type) where
  nextPacketid : ℕ
  commandTimeoutMs : UInt32
  bufSize : ℕ
  readbufSize : ℕ
  buf : ℕ
  readbuf : ℕ
  keepAliveInterval : ℕ
  pingOutstanding : Bool
  isconnected : Bool
  messageHandlers : HandlerTable η
  defaultMessageHandler : Option η
  pingTimer : Timer

def clientInit {η : Type} (c : Client η) (commandTimeoutMs : UInt32) (sendbuf sendbufSize readbuf readbufSize : ℕ) :
    Client η := { c with
  messageHandlers := {
    slots := c.messageHandlers.slots.map fun h => { h with topicFilter := none }
    length_slots := by rw [List.length_map, c.messageHandlers.length_slots] }
  commandTimeoutMs := commandTimeoutMs
  buf := sendbuf
  bufSize := sendbufSize
  readbuf := readbuf
  readbufSize := readbufSize
  isconnected := false
  pingOutstanding := false
  defaultMessageHandler := none
  nextPacketid := 1 }

/-- A call that is noted when it comes to its end with `rc = 0`. -/
inductive Finished where
  | published (topicName : List UInt8) (qos : QoS)
  | unsubscribed (topicFilter : List UInt8)
deriving DecidableEq

/-- What a caller can see of the client: packets in and out, calls of handlers, rounds that fail, and what changes
between the calls. -/
inductive Event (η : Type) where
  | received (header : UInt8) (body : List UInt8)
  | sent (packet : List UInt8) (complete : Bool)
  | delivered (handler : η) (topic payload : List UInt8)
  | failed
  | numbered (id : ℕ)
  | accepted
  | registered (topicFilter : List UInt8) (fp : Option η)
  | completed (call : Finished)
  | closed
deriving DecidableEq

/-- The client, its memory and its surroundings. The log is not part of the program. -/
structure World (ω η : Type) where
  c : Client η
  mem : Mem
  env : ω
  log : List (Event η)

abbrev Run (ω η α : Type) := Prog (World ω η) α

/-- What the client calls, in the state `ω` of its surroundings, with handlers that are named by `η`. A read gives
its result and the bytes that it stored, a write its result. A handler is any program: it can use the client, store
bytes anywhere, and leave its message in any way. What a `size_t` has beside the bytes of an `int` is `upper`. -/
structure Env (ω η : Type) where
  time : ω → ω × ℕ
  read : ω → ℕ → ℕ → ω × ℤ × List UInt8
  write : ω → List UInt8 → ℕ → ω × ℤ
  handle : η → PublishData → Run ω η PublishData
  publishData : ω → PublishData
  ackData : ω → AckData
  upper : ω → ℕ
  stored_le : ∀ s size timeout, (read s size timeout).2.2.length ≤ size

/-- The handlers return with their message as it was and leave the client and its memory alone, and where a `size_t`
is wider than an `int`, its other bytes are 0. -/
structure Env.Quiet {ω η : Type} (E : Env ω η) : Prop where
  handle : ∀ fp d w, ∃ env, E.handle fp d w = (some d, { w with env := env })
  upper : ∀ env, E.upper env = 0

section
variable {ω η : Type} (E : Env ω η)

/-- `c` and the memory, as an expression reads them. -/
def client : Run ω η (Client η) := .of fun w => (w.c, w)
def memory : Run ω η Mem := .of fun w => (w.mem, w)
def environment : Run ω η ω := .of fun w => (w.env, w)

def setClient (f : Client η → Client η) : Run ω η Unit := .of fun w => ((), { w with c := f w.c })
def setMemory (m : Mem) : Run ω η Unit := .of fun w => ((), { w with mem := m })
def note (e : Event η) : Run ω η Unit := .of fun w => ((), { w with log := w.log ++ [e] })

def osGetTime : Run ω η ℕ := .of fun w =>
  let r := E.time w.env
  (r.2, { w with env := r.1 })

def timerIsExpired (t : Timer) : Run ω η Bool := do
  let now ← osGetTime E
  return t.isExpired now

def timerLeftMs (t : Timer) : Run ω η ℕ := do
  let now ← osGetTime E
  return t.leftMs now

def timerCountdownMs (waitMs : UInt32) : Run ω η Timer := do
  let now ← osGetTime E
  return Timer.countdownMs now waitMs

def timerCountdownSecond (second : ℤ) : Run ω η Timer := do
  let now ← osGetTime E
  return Timer.countdownSecond now second

/-- `ipstack->read`, to the address `p`. -/
def netRead (p size timeout : ℕ) : Run ω η ℤ := .of fun w =>
  let r := E.read w.env size timeout
  (r.2.1, { w with env := r.1, mem := write w.mem p r.2.2 })

/-- `ipstack->write`, from the address `p`. -/
def netWrite (p size timeout : ℕ) : Run ω η ℤ := .of fun w =>
  let r := E.write w.env (read w.mem p size) timeout
  (r.2, { w with env := r.1 })

/-- `topic.cstring = (char *)topicFilter`. -/
def topicString (text : List UInt8) : MQTTString := { MQTTString.initializer with cstring := some text }

def getNextPacketId : Run ω η UInt16 := do
  let c ← client
  let id := if c.nextPacketid = maxPacketId then 1 else c.nextPacketid + 1
  setClient fun c => { c with nextPacketid := id }
  note (.numbered id)
  return UInt16.ofNat id

section
variable (rounds : ℕ)

/-- The loop of `sendPacket`. Returns `sent`. -/
def sendLoop (timer : Timer) (length : ℤ) : ℕ → ℤ → Run ω η ℤ
  | 0, _ => .stop
  | rounds + 1, sent => do
    if sent < length then
      if ← timerIsExpired E timer then return sent
      else
        let left ← timerLeftMs E timer
        let c ← client
        let rc ← netWrite E (c.buf + sent.toNat) length.toNat left
        if rc < 0 then return sent
        else sendLoop timer length rounds (sent + rc)
    else return sent

def sendPacket (length : ℤ) (timer : Timer) : Run ω η ℤ := do
  let sent ← sendLoop E timer length rounds 0
  let c ← client
  let m ← memory
  note (.sent (read m c.buf length.toNat) (sent = length))
  if sent = length then
    let t ← timerCountdownSecond E c.keepAliveInterval
    setClient fun c => { c with pingTimer := t }
    return success
  else return failure

/-- `decodePacket`, whose loop is that of `MQTTPacket_decode` with the network as its source. -/
def decodePacket (timeout : ℕ) : Run ω η ℕ := .of fun w =>
  let getchar env :=
    let r := E.read env 1 timeout
    (r.1, r.2.1, r.2.2.headD 0)
  let r := packetDecode getchar w.env
  (r.2.2, { w with env := r.1 })

/-- The third step of `readPacket`: the bytes behind the remaining length, if there are any. -/
def readRest (p remLen : ℕ) (timer : Timer) : Run ω η ℤ :=
  if 0 < remLen then do
    let left ← timerLeftMs E timer
    netRead E p remLen left
  else pure remLen

def readPacket (timer : Timer) : Run ω η ℤ := do
  let c ← client
  let rc ← netRead E c.readbuf 1 (← timerLeftMs E timer)
  if rc ≠ 1 then return failure
  else
    let remLen ← decodePacket E (← timerLeftMs E timer)
    let m ← memory
    let r := packetEncode m (c.readbuf + 1) remLen
    setMemory r.1
    let len := 1 + r.2
    let rc ← readRest E (c.readbuf + len) remLen timer
    if rc ≠ remLen then return failure
    else
      let m ← memory
      note (.received (m c.readbuf) (read m (c.readbuf + len) remLen))
      return MQTTHeader.type (m c.readbuf)

/-- `c->messageHandlers[i].fp(&md)`. Returns the message as the handler leaves it. -/
def callHandler (fp : η) (d : PublishData) : Run ω η PublishData := do
  let m ← memory
  note (.delivered fp (d.topicName.chars m) (read m d.payload d.payloadlen.toNat))
  E.handle fp d

/-- The condition on `c->messageHandlers[i]` in `deliverMessage`. -/
def MessageHandlers.takes (h : MessageHandlers η) (m : Mem) (topicName : MQTTString) : Bool :=
  match h.topicFilter with
  | none => false
  | some filter => packetEquals m topicName filter ||
      0 ≤ topicName.lenstring.len &&
        isTopicMatched filter (read m topicName.lenstring.data topicName.lenstring.len.toNat)

/-- The loop of `deliverMessage`, with `rc` and the message. -/
def deliverLoop : List (Fin maxMessageHandlers) → PublishData → ℤ → Run ω η (ℤ × PublishData)
  | [], d, rc => return (rc, d)
  | i :: is, d, rc => do
    let c ← client
    let m ← memory
    if (c.messageHandlers.get i).takes m d.topicName then
      match (c.messageHandlers.get i).fp with
      | some fp => do
        let d ← callHandler E fp d
        deliverLoop is d success
      | none => deliverLoop is d rc
    else deliverLoop is d rc

/-- `deliverMessage`. Returns the message as it is left as well. -/
def deliverMessage (d : PublishData) : Run ω η (ℤ × PublishData) := do
  let r ← deliverLoop E (List.finRange maxMessageHandlers) d failure
  let c ← client
  if r.1 = failure then
    match c.defaultMessageHandler with
    | some fp => do
      let d ← callHandler E fp r.2
      return (success, d)
    | none => return r
  else return r

def keepalive : Run ω η ℤ := do
  let c ← client
  if c.keepAliveInterval = 0 then return success
  else if ← timerIsExpired E c.pingTimer then
    if c.pingOutstanding then return failure
    else
      let t ← timerCountdownMs E c.commandTimeoutMs
      let m ← memory
      let r := serializePingreq m c.buf c.bufSize
      setMemory r.1
      if 0 < r.2 then
        let rc ← sendPacket E rounds r.2 t
        if rc = success then
          setClient fun c => { c with pingOutstanding := true }
          return rc
        else return rc
      else return failure
  else return failure

/-- The end of `cycle` with `rc = SUCCESS`. -/
def cycleEnd (packetType : ℕ) : Run ω η ℤ := do
  let _ ← keepalive E rounds
  return packetType

/-- The end of `cycle` with `rc = FAILURE`. -/
def cycleFail : Run ω η ℤ := do
  note .failed
  return failure

/-- `MQTTSerialize_ack` and `sendPacket`, as `cycle` has them for all of its answers. -/
def sendAck (packettype : ℕ) (packetid : UInt16) (timer : Timer) : Run ω η ℤ := do
  let c ← client
  let m ← memory
  let r := serializeAck m c.buf c.bufSize packettype 0 packetid
  setMemory r.1
  if r.2 ≤ 0 then return failure
  else sendPacket E rounds r.2 timer

/-- The answer to a PUBLISH whose quality of service is not `QOS0`. -/
def replyPublish (d : PublishData) (timer : Timer) : Run ω η ℤ :=
  if d.qos = 1 then sendAck E rounds puback d.packetid timer
  else if d.qos = 2 then sendAck E rounds pubrec d.packetid timer
  else pure failure

/-- The case `PUBLISH` of `cycle`. Through `(int *)&msg.payloadlen` only the bytes of an `int` are stored. -/
def cyclePublish (timer : Timer) : Run ω η ℤ := do
  let c ← client
  let m ← memory
  let env ← environment
  let r := deserializePublish m (E.publishData env) c.readbuf
  if r.1 ≠ 1 then return publish
  else
    let r ← deliverMessage E { r.2 with payloadlen := r.2.payloadlen % 2 ^ 32 + 2 ^ 32 * E.upper env }
    if r.2.qos = 0 then cycleEnd E rounds publish
    else
      let rc ← replyPublish E rounds r.2 timer
      if rc = failure then cycleFail
      else cycleEnd E rounds publish

/-- The case `PUBREC` of `cycle`. -/
def cyclePubrec (timer : Timer) : Run ω η ℤ := do
  let c ← client
  let m ← memory
  let env ← environment
  let r := deserializeAck m (E.ackData env) c.readbuf
  if r.1 ≠ 1 then cycleFail
  else
    let rc ← sendAck E rounds pubrel r.2.packetid timer
    if rc ≠ success then cycleFail
    else cycleEnd E rounds pubrec

def cycle (timer : Timer) : Run ω η ℤ := do
  let packetType := ((← readPacket E timer) % 65536).toNat
  if packetType = publish then cyclePublish E rounds timer
  else if packetType = pubrec then cyclePubrec E rounds timer
  else if packetType = pingresp then do
    setClient fun c => { c with pingOutstanding := false }
    cycleEnd E rounds packetType
  else cycleEnd E rounds packetType

/-- The loop of `MQTTYield`. -/
def yieldLoop (timer : Timer) : ℕ → Run ω η ℤ
  | 0 => .stop
  | n + 1 => do
    let rc ← cycle E rounds timer
    if rc = failure then return failure
    else if ← timerIsExpired E timer then return success
    else yieldLoop timer n

def mqttYield (timeoutMs : UInt32) : Run ω η ℤ := do
  let t ← timerCountdownMs E timeoutMs
  yieldLoop E rounds t rounds

/-- The loop of `waitfor`. -/
def waitforLoop (packetType : ℕ) (timer : Timer) : ℕ → ℤ → Run ω η ℤ
  | 0, _ => .stop
  | n + 1, rc => do
    if ← timerIsExpired E timer then return rc
    else
      let rc ← cycle E rounds timer
      if rc = packetType then return rc
      else waitforLoop packetType timer n rc

def waitfor (packetType : ℕ) (timer : Timer) : Run ω η ℤ := waitforLoop E rounds packetType timer rounds failure

/-- The end of `MQTTConnect`, behind `sendPacket`. -/
def connectAnswer (timer : Timer) : Run ω η ℤ := do
  let got ← waitfor E rounds connack timer
  if got = connack then
    let c ← client
    let m ← memory
    let r := deserializeConnack m 0 255 c.readbuf
    if r.1 = 1 then
      if r.2.2 = 0 then
        note .accepted
        setClient fun c => { c with isconnected := true }
        return success
      else return r.2.2.toNat
    else return failure
  else return failure

def mqttConnect (options : Option ConnectData) : Run ω η ℤ := do
  let c ← client
  if c.isconnected then return failure
  else
    let t ← timerCountdownMs E c.commandTimeoutMs
    let options := options.getD ConnectData.initializer
    setClient fun c => { c with keepAliveInterval := options.keepAliveInterval.toNat }
    let ping ← timerCountdownSecond E options.keepAliveInterval.toNat
    setClient fun c => { c with pingTimer := ping }
    let m ← memory
    let r := serializeConnect m c.buf c.bufSize options
    setMemory r.1
    if r.2 ≤ 0 then return failure
    else
      let rc ← sendPacket E rounds r.2 t
      if rc ≠ success then return rc
      else connectAnswer E rounds t

/-- The loop of `MQTTSubscribe` over the handlers: the first free slot is taken. -/
def takeSlot (topicFilter : List UInt8) (fp : Option η) :
    List (MessageHandlers η) → Option (List (MessageHandlers η))
  | [] => none
  | h :: hs =>
    if h.topicFilter.isNone then some (⟨some topicFilter, fp⟩ :: hs)
    else (takeSlot topicFilter fp hs).map (h :: ·)

theorem length_takeSlot {topicFilter : List UInt8} {fp : Option η} {hs slots : List (MessageHandlers η)}
    (h : takeSlot topicFilter fp hs = some slots) : slots.length = hs.length := by
  induction hs generalizing slots with
  | nil => cases h
  | cons g hs ih =>
    rw [takeSlot] at h
    split_ifs at h
    · cases h
      rfl
    · obtain ⟨rest, hrest, rfl⟩ := Option.map_eq_some_iff.mp h
      exact congrArg (· + 1) (ih hrest)

def HandlerTable.take (t : HandlerTable η) (topicFilter : List UInt8) (fp : Option η) :
    Option (HandlerTable η) :=
  match h : takeSlot topicFilter fp t.slots with
  | none => none
  | some slots => some ⟨slots, (length_takeSlot h).trans t.length_slots⟩

/-- A call that has come to its end with `rc = 0`. -/
def complete (call : Finished) : Run ω η ℤ := do
  note (.completed call)
  return success

/-- The end of `MQTTSubscribe`, behind `sendPacket`. The second return code of a SUBACK would be stored behind
`grantedQoS`. -/
def subscribeAnswer (charSigned : Bool) (topicFilter : List UInt8) (fp : Option η) (timer : Timer) :
    Run ω η ℤ := do
  let got ← waitfor E rounds suback timer
  if got = suback then
    let c ← client
    let m ← memory
    let r := deserializeSuback charSigned m 1 ⟨0, 0, fun _ => -1⟩ c.readbuf
    let rc := if r.1 = 1 then r.2.grantedQoSs 0 else success
    if rc ≠ 0x80 then
      match c.messageHandlers.take topicFilter fp with
      | some table => do
        setClient fun c => { c with messageHandlers := table }
        note (.registered topicFilter fp)
        return success
      | none => return rc
    else return rc
  else return failure

def mqttSubscribe (charSigned : Bool) (topicFilter : List UInt8) (qos : QoS) (fp : Option η) : Run ω η ℤ := do
  let c ← client
  if c.isconnected = false then return failure
  else
    let t ← timerCountdownMs E c.commandTimeoutMs
    let id ← getNextPacketId
    let m ← memory
    let r := serializeSubscribe m c.buf c.bufSize 0 id
      [(topicString topicFilter, qos.value)]
    setMemory r.1
    if r.2 ≤ 0 then return failure
    else
      let rc ← sendPacket E rounds r.2 t
      if rc ≠ success then return rc
      else subscribeAnswer E rounds charSigned topicFilter fp t

/-- The end of `MQTTUnsubscribe`, behind `sendPacket`. -/
def unsubscribeAnswer (topicFilter : List UInt8) (timer : Timer) : Run ω η ℤ := do
  let got ← waitfor E rounds unsuback timer
  if got = unsuback then
    -- the packet is deserialized, but `rc` is 0 in any case
    complete (.unsubscribed topicFilter)
  else return failure

def mqttUnsubscribe (topicFilter : List UInt8) : Run ω η ℤ := do
  let c ← client
  if c.isconnected = false then return failure
  else
    let t ← timerCountdownMs E c.commandTimeoutMs
    let id ← getNextPacketId
    let m ← memory
    let r := serializeUnsubscribe m c.buf c.bufSize 0 id [topicString topicFilter]
    setMemory r.1
    if r.2 ≤ 0 then return failure
    else
      let rc ← sendPacket E rounds r.2 t
      if rc ≠ success then return rc
      else unsubscribeAnswer E rounds topicFilter t

/-- The members of `MQTTMessage` that are used to publish. -/
structure Message where
  qos : QoS
  retained : UInt8
  id : UInt16
  payload : ℕ
  payloadlen : ℕ

/-- What `MQTTPublish` does for the acknowledgement of its message. -/
def ackAnswer (packetType : ℕ) (call : Finished) (timer : Timer) : Run ω η ℤ := do
  let got ← waitfor E rounds packetType timer
  if got = packetType then
    let c ← client
    let m ← memory
    let env ← environment
    if (deserializeAck m (E.ackData env) c.readbuf).1 ≠ 1 then return failure
    else complete call
  else return failure

/-- The end of `MQTTPublish`, behind `sendPacket`. -/
def publishAnswer (topicName : List UInt8) (qos : QoS) (timer : Timer) : Run ω η ℤ :=
  if qos = .qos1 then ackAnswer E rounds puback (.published topicName qos) timer
  else if qos = .qos2 then ackAnswer E rounds pubcomp (.published topicName qos) timer
  else complete (.published topicName qos)

/-- The identifier that `MQTTPublish` gives to its message. -/
def numberMessage (message : Message) : Run ω η Message :=
  if message.qos = .qos1 ∨ message.qos = .qos2 then do
    let id ← getNextPacketId
    return { message with id := id }
  else return message

/-- `MQTTPublish`. Returns the message as it is left as well. -/
def mqttPublish (topicName : List UInt8) (message : Message) : Run ω η (ℤ × Message) := do
  let c ← client
  if c.isconnected = false then return (failure, message)
  else
    let t ← timerCountdownMs E c.commandTimeoutMs
    let message ← numberMessage message
    let m ← memory
    let r := serializePublish m c.buf c.bufSize 0 message.qos.value message.retained message.id
      (topicString topicName) message.payload message.payloadlen
    setMemory r.1
    if r.2 ≤ 0 then return (failure, message)
    else
      let rc ← sendPacket E rounds r.2 t
      if rc ≠ success then return (rc, message)
      else
        let rc ← publishAnswer E rounds topicName message.qos t
        return (rc, message)

/-- The part of `MQTTDisconnect` that sends its packet. -/
def sendDisconnect (timer : Timer) : Run ω η ℤ := do
  let c ← client
  let m ← memory
  let r := serializeDisconnect m c.buf c.bufSize
  setMemory r.1
  if 0 < r.2 then sendPacket E rounds r.2 timer
  else return failure

def mqttDisconnect : Run ω η ℤ := do
  let c ← client
  let t ← timerCountdownMs E c.commandTimeoutMs
  let rc ← sendDisconnect E rounds t
  setClient fun c => { c with isconnected := false }
  note .closed
  return rc

end

/-- What an application does with a client. It can store bytes anywhere between two calls. -/
inductive Call (η : Type) where
  | connect (options : Option ConnectData)
  | subscribe (topicFilter : List UInt8) (qos : QoS) (fp : Option η)
  | unsubscribe (topicFilter : List UInt8)
  | publish (topicName : List UInt8) (message : Message)
  | yield (timeoutMs : UInt32)
  | disconnect
  | store (p : ℕ) (bytes : List UInt8)

/-- One call, with so many rounds for each of its loops. -/
def Call.perform (charSigned : Bool) (rounds : ℕ) : Call η → Run ω η Unit
  | .connect options => do
    let _ ← mqttConnect E rounds options
  | .subscribe topicFilter qos fp => do
    let _ ← mqttSubscribe E rounds charSigned topicFilter qos fp
  | .unsubscribe topicFilter => do
    let _ ← mqttUnsubscribe E rounds topicFilter
  | .publish topicName message => do
    let _ ← mqttPublish E rounds topicName message
  | .yield timeoutMs => do
    let _ ← mqttYield E rounds timeoutMs
  | .disconnect => do
    let _ ← mqttDisconnect E rounds
  | .store p bytes => do
    let m ← memory
    setMemory (write m p bytes)

end
end EmbeddedTemplate.Mqtt
