import EmbeddedTemplate.Mqtt.Conformance

/-! What the events of a client say about each other, in any history of calls: every answer, every connection, every
subscription and every identifier goes back to the event that it is there for. -/
namespace EmbeddedTemplate.Mqtt

open ByteMem Hoare Transition

variable {ω η : Type} {E : Env ω η} {charSigned : Bool} {s s' : Session η} {es as bs : List (Event η)}
  {packet : List UInt8} {complete : Bool}

/-- The events of a client from `MQTTClientInit` on, after calls of which the last may still go on. -/
def History (E : Env ω η) (charSigned : Bool) (es : List (Event η)) : Prop :=
  ∃ (rounds : ℕ) (c : Client η) (commandTimeoutMs : UInt32) (sendbuf sendbufSize readbuf readbufSize : ℕ) (mem : Mem)
    (env : ω) (calls : List (Call η)), (sendbuf + sendbufSize ≤ readbuf ∨ readbuf + 7 ≤ sendbuf) ∧
      (calls.forM (Call.perform E charSigned rounds)
        (World.init c commandTimeoutMs sendbuf sendbufSize readbuf readbufSize mem env)).2.log = es

theorem History.run (hE : E.Quiet) (h : History E charSigned es) : ∃ s, Session.Run es s := by
  obtain ⟨rounds, c, commandTimeoutMs, sendbuf, sendbufSize, readbuf, readbufSize, mem, env, calls, hapart, rfl⟩ := h
  have hbetween := between_init c commandTimeoutMs readbufSize mem env hapart
  obtain ⟨hdone, hstopped⟩ := (calls_spec hE charSigned rounds calls hbetween).run
  cases hr : (calls.forM (Call.perform E charSigned rounds)
    (World.init c commandTimeoutMs sendbuf sendbufSize readbuf readbufSize mem env)).1 with
  | none => exact hstopped hr
  | some _ =>
    obtain ⟨s, hs, -⟩ := hdone () hr
    exact ⟨s, hs.run⟩

theorem History.at (hE : E.Quiet) {e : Event η} (h : History E charSigned (as ++ e :: bs)) :
    ∃ s t u, Session.Run as s ∧ Session.Step s e t ∧ Trace Session.Step t bs u := by
  obtain ⟨u, hu⟩ := h.run hE
  obtain ⟨s, hs, hrest⟩ := Trace.split hu
  cases hrest with
  | cons hstep hafter => exact ⟨s, _, u, hs, hstep, hafter⟩

/-- A connection, a subscription to `a`, and the end of the subscription, which is confirmed after a message for `a`
with quality of service 1. -/
def scriptEvents : List (Event ℕ) := [
  .sent [16, 12, 0, 4, 77, 81, 84, 84, 4, 2, 0, 60, 0, 0] true, .received 32 [0, 0], .accepted,
  .numbered 2, .sent [130, 6, 0, 2, 0, 1, 97, 1] true, .received 144 [0, 2, 1], .registered [97] (some 7),
  .numbered 3, .sent [162, 5, 0, 3, 0, 1, 97] true, .received 50 [0, 1, 97, 0, 5, 120], .delivered 7 [97] [120],
  .sent [64, 2, 0, 5] true, .received 176 [0, 3], .completed (.unsubscribed [97])]

theorem script_history : History (script fun _ => 0) false scriptEvents := by
  refine ⟨4, scriptClient, 1000, 100, 50, 200, 50, fun _ => 0,
    [[32], [2], [0, 0], [144], [3], [0, 2, 1], [50], [6], [0, 1, 97, 0, 5, 120], [176], [2], [0, 3]],
    [.connect none, .subscribe [97] .qos1 (some 7), .unsubscribe [97]], .inl (by decide), ?_⟩
  decide +kernel

def packetType (packet : List UInt8) : Option ℕ := packet.head?.map MQTTHeader.type

theorem packetType_connect (h : packet.head? = some (MQTTHeader.ofBits connect 0 0 0)) :
    packetType packet = some connect := by
  unfold packetType
  rw [h]
  exact congrArg some MQTTHeader.type_ofBits

theorem packetType_request {id : ℕ} {awaited : Option ℕ} (h : Request id packet awaited) :
    packetType packet = some publish ∨ packetType packet = some subscribe ∨ packetType packet = some unsubscribe := by
  unfold packetType
  cases h with
  | publish qos retained packetid topic content hid => exact .inl (congrArg some MQTTHeader.type_ofBits)
  | subscribe topicFilter qos => exact .inr (.inl (congrArg some MQTTHeader.type_ofBits))
  | unsubscribe topicFilter => exact .inr (.inr (congrArg some MQTTHeader.type_ofBits))

theorem packetType_reply {header : UInt8} {k : ℕ} {id : UInt16} (h : reply header = some k) :
    packetType (ackPacket k 0 id) = some k ∧ (k = puback ∨ k = pubrec ∨ k = pubrel) := by
  have hk : k = puback ∨ k = pubrec ∨ k = pubrel := by
    unfold reply at h
    split_ifs at h
    all_goals
      obtain rfl := Option.some.inj h
      decide
  refine ⟨?_, hk⟩
  rw [ackPacket_eq]
  unfold packetType
  rw [List.cons_append, List.head?_cons, Option.map_some, MQTTHeader.type_ofBits, Nat.mod_eq_of_lt]
  unfold puback pubrec pubrel at hk
  omega

theorem awaited_ne_connack {id : ℕ} {awaited : Option ℕ} (h : Request id packet awaited) :
    awaited ≠ some connack := by
  cases h with
  | publish qos retained packetid topic content hid =>
    cases qos
    all_goals decide
  | subscribe topicFilter qos => decide
  | unsubscribe topicFilter => decide

theorem connected_of_connect (h : Session.Step s (.sent packet complete) s')
    (hpacket : packetType packet = some connect) : s.connected = false := by
  cases h with
  | answered id complete hphase hserved hreply hid =>
    obtain ⟨htype, hk⟩ := packetType_reply hreply
    rw [htype] at hpacket
    obtain rfl := Option.some.inj hpacket
    exact absurd hk (by decide)
  | connect complete hfree hconnected hhead => exact hconnected
  | request complete hfree hconnected hrequest hfresh =>
    have htype := packetType_request hrequest
    rw [hpacket] at htype
    exact absurd htype (by decide)
  | ping complete hfree hpinged => exact absurd hpacket (by decide)
  | disconnect complete hfree => exact absurd hpacket (by decide)

theorem connected_of_step {e : Event η} (h : Session.Step s e s') (hconnected : s.connected = true)
    (hclosed : e ≠ .closed) : s'.connected = true := by
  cases h with
  | closed hfree => exact absurd rfl hclosed
  | accepted hfree hnot hpending hphase htype hcode => rfl
  | _ => exact hconnected

/-- Once a connection has been accepted, no CONNECT is sent and no connection is accepted before the client has been
disconnected. -/
theorem History.no_connect_while_connected (hE : E.Quiet) (h : History E charSigned (as ++ .accepted :: bs))
    (hclosed : .closed ∉ bs) :
    .accepted ∉ bs ∧ ∀ packet complete, .sent packet complete ∈ bs → packetType packet ≠ some connect := by
  obtain ⟨s, t, u, -, haccepted, hrest⟩ := h.at hE
  have htrue : t.connected = true := by
    cases haccepted
    rfl
  have hheld : ∀ e ∈ bs, ∃ v v', Session.Step v e v' ∧ v.connected = true := by
    intro e he
    obtain ⟨xs, ys, rfl⟩ := List.append_of_mem he
    obtain ⟨v, hv, hafter⟩ := hrest.split
    have hconnected : v.connected = true := by
      refine Trace.preserves (I := fun v => v.connected = true) ?_ htrue hv
      intro v₁ a v₂ ha hv₁ hstep
      apply connected_of_step hstep hv₁
      rintro rfl
      exact hclosed (List.mem_append_left _ ha)
    cases hafter with
    | cons hstep _ => exact ⟨v, _, hstep, hconnected⟩
  constructor
  · intro he
    obtain ⟨v, v', hstep, hconnected⟩ := hheld _ he
    cases hstep with
    | accepted hfree hnot hpending hphase htype hcode =>
      rw [hconnected] at hnot
      cases hnot
  · intro packet complete he hpacket
    obtain ⟨v, v', hstep, hconnected⟩ := hheld _ he
    have hnot := connected_of_connect hstep hpacket
    rw [hconnected] at hnot
    cases hnot

theorem History.no_connect_while_connected_script : .accepted ∉ scriptEvents.drop 3 ∧
    ∀ packet complete, .sent packet complete ∈ scriptEvents.drop 3 → packetType packet ≠ some connect := by
  have h : History (script fun _ => 0) false (scriptEvents.take 2 ++ .accepted :: scriptEvents.drop 3) :=
    script_history
  exact h.no_connect_while_connected (script_quiet _) (by decide)

theorem sent_of_pending {e : Event η} {awaited : Option ℕ} (h : Session.Step s e s')
    (hnot : ¬ s.pending = some (packet, awaited)) (hpending : s'.pending = some (packet, awaited)) :
    e = .sent packet true ∧ s'.phase = .idle ∧
      (awaited = some connack ∧ packetType packet = some connect ∨ Request s.id packet awaited) := by
  cases h with
  | connect complete hfree hconnected hhead =>
    cases complete with
    | false => cases hpending
    | true =>
      obtain ⟨rfl, rfl⟩ := Prod.mk.inj (Option.some.inj hpending)
      exact ⟨rfl, rfl, .inl ⟨rfl, packetType_connect hhead⟩⟩
  | request complete hfree hconnected hrequest hfresh =>
    cases complete with
    | false => cases hpending
    | true =>
      obtain ⟨rfl, rfl⟩ := Prod.mk.inj (Option.some.inj hpending)
      exact ⟨rfl, rfl, .inr hrequest⟩
  | accepted => cases hpending
  | registered => cases hpending
  | completed => cases hpending
  | _ => exact absurd hpending hnot

theorem received_of_handling {e : Event η} {header : UInt8} {body : List UInt8} {calls : List (Event η)}
    (h : Session.Step s e s') (hnot : ¬ ∃ calls, s.phase = .handling header body calls)
    (hphase : s'.phase = .handling header body calls) : e = .received header body := by
  cases h with
  | received header' body' hfree =>
    cases hphase
    rfl
  | delivered fp topic payload hbefore htype hfp hdue =>
    cases hphase
    exact absurd ⟨_, hbefore⟩ hnot
  | answered id complete hbefore hserved hreply hid =>
    cases complete with
    | false => cases hphase
    | true => cases hphase
  | failed => cases hphase
  | connect => cases hphase
  | request => cases hphase
  | _ => exact absurd ⟨_, hphase⟩ hnot

theorem received_of_trace {t : Session η} {header : UInt8} {body : List UInt8} {calls : List (Event η)}
    (h : Trace Session.Step t es s) (hnot : ¬ ∃ calls, t.phase = .handling header body calls)
    (hphase : s.phase = .handling header body calls) : ∃ xs ys, es = xs ++ .received header body :: ys := by
  obtain ⟨xs, e, ys, v, v', rfl, -, hv, hstep, ⟨calls', hv'⟩, -⟩ :=
    Trace.since (P := fun s => ∃ calls, s.phase = .handling header body calls) h hnot ⟨calls, hphase⟩
  obtain rfl := received_of_handling hstep hv hv'
  exact ⟨xs, ys, rfl⟩

/-- The event says that a request has been answered. -/
def Event.settles : Event η → Bool
  | .accepted | .registered _ _ | .completed _ => true
  | _ => false

theorem settles_of_pending {e : Event η} {p : List UInt8 × Option ℕ} (h : Session.Step s e s')
    (hpending : s'.pending = some p) : e.settles = false := by
  cases h with
  | accepted => cases hpending
  | registered => cases hpending
  | completed => cases hpending
  | _ => rfl

/-- The CONNECT that is pending, and the packet that has arrived since it was sent. -/
theorem requested (h : Session.Run es s) (hpending : s.pending = some (packet, some connack)) :
    ∃ xs ys, es = xs ++ .sent packet true :: ys ∧ packetType packet = some connect ∧
      (∀ e ∈ ys, e.settles = false) ∧ ∀ header body calls, s.phase = .handling header body calls →
        ∃ zs zs', ys = zs ++ .received header body :: zs' := by
  have hinit : ¬ (Session.init : Session η).pending = some (packet, some connack) := by
    rintro ⟨⟩
  obtain ⟨xs, e, ys, t, t', rfl, -, ht, hstep, ht', hsince⟩ :=
    Trace.since (P := fun s => s.pending = some (packet, some connack)) h hinit hpending
  obtain ⟨rfl, hidle, hkind⟩ := sent_of_pending hstep ht ht'
  refine ⟨xs, ys, rfl, ?_, ?_, ?_⟩
  · rcases hkind with ⟨-, hconnect⟩ | hrequest
    · exact hconnect
    · exact absurd rfl (awaited_ne_connack hrequest)
  · intro e he
    obtain ⟨v, v', -, hv, hv'⟩ := hsince.step_of_mem he
    exact settles_of_pending hv hv'
  · intro header body calls hphase
    apply received_of_trace (hsince.mono fun _ _ _ hv => hv.2.1) _ hphase
    rintro ⟨calls', hcalls⟩
    rw [hidle] at hcalls
    cases hcalls

theorem accepted_of_connected (h : Session.Run es s) (hconnected : s.connected = true) :
    ∃ xs ys, es = xs ++ .accepted :: ys ∧ .closed ∉ ys := by
  have hinit : ¬ (Session.init : Session η).connected = true := by
    rintro ⟨⟩
  obtain ⟨xs, e, ys, t, t', rfl, -, ht, hstep, ht', hsince⟩ :=
    Trace.since (P := fun s => s.connected = true) h hinit hconnected
  refine ⟨xs, ys, ?_, fun hclosed => ?_⟩
  · cases hstep with
    | accepted => rfl
    | closed => cases ht'
    | _ => exact absurd ht' ht
  · obtain ⟨v, v', -, hv, hv'⟩ := hsince.step_of_mem hclosed
    cases hv with
    | closed => cases hv'

/-- What is pending in an open connection has been sent in it. -/
theorem sent_of_connected {e : Event η} {awaited : Option ℕ} (h : Session.Step s e s')
    (hnot : ¬ (s.pending = some (packet, awaited) ∧ s.connected = true))
    (hpending : s'.pending = some (packet, awaited) ∧ s'.connected = true) :
    e = .sent packet true ∧ s'.phase = .idle ∧ s.connected = true := by
  obtain ⟨hpending, hconnected⟩ := hpending
  by_cases hbefore : s.pending = some (packet, awaited)
  · cases h with
    | accepted => cases hpending
    | connect complete hfree hfalse hhead =>
      rw [hfalse] at hconnected
      cases hconnected
    | request complete hfree htrue hrequest hfresh => exact absurd ⟨hbefore, htrue⟩ hnot
    | closed => cases hconnected
    | registered => cases hpending
    | completed => cases hpending
    | _ => exact absurd ⟨hbefore, hconnected⟩ hnot
  · obtain ⟨rfl, hidle, -⟩ := sent_of_pending h hbefore hpending
    refine ⟨rfl, hidle, ?_⟩
    cases h with
    | connect complete hfree hfalse hhead => exact hconnected
    | request complete hfree htrue hrequest hfresh => exact htrue
    | _ => exact hconnected

/-- The request that is pending has been sent as a whole in the open connection, nothing has been answered since, and
the packet that is handled has been received since. -/
theorem requested_connected {awaited : Option ℕ} (h : Session.Run es s) (hconnected : s.connected = true)
    (hpending : s.pending = some (packet, awaited)) :
    ∃ xs ys zs, es = xs ++ .accepted :: (ys ++ .sent packet true :: zs) ∧ .closed ∉ ys ++ zs ∧
      (∀ e ∈ zs, e.settles = false) ∧ ∀ header body calls, s.phase = .handling header body calls →
        ∃ us us', zs = us ++ .received header body :: us' := by
  have hinit : ¬ ((Session.init : Session η).pending = some (packet, awaited) ∧
      (Session.init : Session η).connected = true) := by
    rintro ⟨⟨⟩, -⟩
  obtain ⟨us, e, zs, t, t', rfl, hus, ht, hstep, ht', hsince⟩ :=
    Trace.since (P := fun s => s.pending = some (packet, awaited) ∧ s.connected = true) h hinit
      ⟨hpending, hconnected⟩
  obtain ⟨rfl, hidle, hopen⟩ := sent_of_connected hstep ht ht'
  obtain ⟨xs, ys, rfl, hclosed⟩ := accepted_of_connected hus hopen
  have hheld : ∀ e ∈ zs, e ≠ .closed ∧ e.settles = false := by
    intro e he
    obtain ⟨v, v', -, hv, hv'⟩ := hsince.step_of_mem he
    refine ⟨?_, settles_of_pending hv hv'.1⟩
    rintro rfl
    cases hv with
    | closed => cases hv'.2
  refine ⟨xs, ys, zs, by simp, ?_, fun e he => (hheld e he).2, ?_⟩
  · rw [List.mem_append]
    rintro (he | he)
    · exact hclosed he
    · exact (hheld _ he).1 rfl
  · intro header body calls hphase
    apply received_of_trace (hsince.mono fun _ _ _ hv => hv.2.1) _ hphase
    rintro ⟨calls', hcalls⟩
    rw [hidle] at hcalls
    cases hcalls

/-- A connection is accepted after a CONNECT has been sent as a whole and a CONNACK with the return code 0 has been
received behind it, and nothing else has been answered since the CONNECT. -/
theorem History.accepted_after_connack (hE : E.Quiet) (h : History E charSigned (as ++ .accepted :: bs)) :
    ∃ xs packet ys header body zs, as = xs ++ .sent packet true :: (ys ++ .received header body :: zs) ∧
      packetType packet = some connect ∧ MQTTHeader.type header = connack ∧ body[1]? = some 0 ∧
        ∀ e ∈ ys ++ zs, e.settles = false := by
  obtain ⟨s, t, u, hs, haccepted, -⟩ := h.at hE
  cases haccepted with
  | accepted hfree hconnected hpending hphase htype hcode =>
    obtain ⟨xs, ys, rfl, hconnect, hsettles, harrived⟩ := requested hs hpending
    obtain ⟨zs, zs', rfl⟩ := harrived _ _ _ hphase
    refine ⟨xs, _, zs, _, _, zs', rfl, hconnect, htype, hcode, fun e he => hsettles e ?_⟩
    simp only [List.mem_append, List.mem_cons] at he ⊢
    tauto

theorem History.accepted_after_connack_script : ∃ xs packet ys header body zs,
    scriptEvents.take 2 = xs ++ .sent packet true :: (ys ++ .received header body :: zs) ∧
      packetType packet = some connect ∧ MQTTHeader.type header = connack ∧ body[1]? = some 0 ∧
        ∀ e ∈ ys ++ zs, e.settles = false := by
  have h : History (script fun _ => 0) false (scriptEvents.take 2 ++ .accepted :: scriptEvents.drop 3) :=
    script_history
  exact h.accepted_after_connack (script_quiet _)

/-- A handler is registered for a filter after a SUBSCRIBE for that filter has been sent as a whole in the connection
that is open and a SUBACK has been received behind it, and nothing else has been answered since the SUBSCRIBE. -/
theorem History.registered_after_suback (hE : E.Quiet) {topicFilter : List UInt8} {fp : Option η}
    (h : History E charSigned (as ++ .registered topicFilter fp :: bs)) :
    ∃ xs ys id qos us header body vs,
      as = xs ++ .accepted ::
        (ys ++ .sent (subscribePacket id topicFilter qos) true :: (us ++ .received header body :: vs)) ∧
      MQTTHeader.type header = suback ∧ .closed ∉ ys ++ us ++ vs ∧ ∀ e ∈ us ++ vs, e.settles = false := by
  obtain ⟨s, t, u, hs, hregistered, -⟩ := h.at hE
  cases hregistered with
  | @registered id qos _ _ hfree hconnected hpending hgot hroom =>
    obtain ⟨header, body, calls, hphase, htype⟩ := hgot
    obtain ⟨xs, ys, zs, rfl, hclosed, hsettles, harrived⟩ := requested_connected hs hconnected hpending
    obtain ⟨us, vs, rfl⟩ := harrived _ _ _ hphase
    refine ⟨xs, ys, id, qos, us, header, body, vs, rfl, htype, ?_, fun e he => hsettles e ?_⟩
    · simp only [List.mem_append, List.mem_cons] at hclosed ⊢
      tauto
    · simp only [List.mem_append, List.mem_cons] at he ⊢
      tauto

theorem History.registered_after_suback_script : ∃ xs ys id qos us header body vs,
    scriptEvents.take 6 = xs ++ .accepted ::
        (ys ++ .sent (subscribePacket id [97] qos) true :: (us ++ .received header body :: vs)) ∧
      MQTTHeader.type header = suback ∧ .closed ∉ ys ++ us ++ vs ∧ ∀ e ∈ us ++ vs, e.settles = false := by
  have h : History (script fun _ => 0) false
    (scriptEvents.take 6 ++ .registered [97] (some 7) :: scriptEvents.drop 7) := script_history
  exact h.registered_after_suback (script_quiet _)

/-- A publication or the end of a subscription is completed after its packet has been sent as a whole in the connection
that is open and a packet of the type that it waits for has been received behind it, and nothing else has been
answered since the packet was sent. -/
theorem History.completed_after_answer (hE : E.Quiet) {call : Finished}
    (h : History E charSigned (as ++ .completed call :: bs)) :
    ∃ xs ys id packet awaited zs, as = xs ++ .accepted :: (ys ++ .sent packet true :: zs) ∧
      Asks id call packet awaited ∧ .closed ∉ ys ++ zs ∧ (∀ e ∈ zs, e.settles = false) ∧
        ∀ k, awaited = some k → ∃ us header body vs, zs = us ++ .received header body :: vs ∧
          MQTTHeader.type header = k := by
  obtain ⟨s, t, u, hs, hcompleted, -⟩ := h.at hE
  cases hcompleted with
  | completed call hfree hconnected hpending hasks hgot =>
    obtain ⟨xs, ys, zs, rfl, hclosed, hsettles, harrived⟩ := requested_connected hs hconnected hpending
    refine ⟨xs, ys, _, _, _, zs, rfl, hasks, hclosed, hsettles, fun k hk => ?_⟩
    obtain ⟨header, body, calls, hphase, htype⟩ := hgot k hk
    obtain ⟨us, vs, hzs⟩ := harrived _ _ _ hphase
    exact ⟨us, header, body, vs, hzs, htype⟩

theorem History.completed_after_answer_script : ∃ xs ys id packet awaited zs,
    scriptEvents.take 13 = xs ++ .accepted :: (ys ++ .sent packet true :: zs) ∧
      Asks id (.unsubscribed [97]) packet awaited ∧ .closed ∉ ys ++ zs ∧ (∀ e ∈ zs, e.settles = false) ∧
        ∀ k, awaited = some k → ∃ us header body vs, zs = us ++ .received header body :: vs ∧
          MQTTHeader.type header = k := by
  have h : History (script fun _ => 0) false (scriptEvents.take 13 ++ .completed (.unsubscribed [97]) :: []) :=
    script_history
  exact h.completed_after_answer (script_quiet _)

def identifiers (es : List (Event η)) : List ℕ :=
  es.filterMap fun e => match e with
    | .numbered id => some id
    | _ => none

theorem numbered_or_id {e : Event η} (h : Session.Step s e s') :
    e = .numbered (nextId s.id) ∧ s'.id = nextId s.id ∨ (∀ id, e ≠ .numbered id) ∧ s'.id = s.id := by
  cases h with
  | numbered hfree => exact .inl ⟨rfl, rfl⟩
  | _ => exact .inr ⟨fun id => by rintro ⟨⟩, rfl⟩

theorem identifiers_of_trace (h : Trace Session.Step s es s') :
    identifiers es = (List.range (identifiers es).length).map fun k => nextId^[k + 1] s.id := by
  induction h with
  | nil => rfl
  | @cons s t u e es hfirst _ ih =>
    rcases numbered_or_id hfirst with ⟨rfl, hid⟩ | ⟨hnot, hid⟩
    · have hcons : identifiers (.numbered (nextId s.id) :: es) = nextId s.id :: identifiers es := rfl
      rw [hid] at ih
      rw [hcons, List.length_cons, List.range_succ_eq_map, List.map_cons, List.map_map]
      exact congrArg _ ih
    · have hskip : identifiers (e :: es) = identifiers es := by
        unfold identifiers
        apply List.filterMap_cons_none
        cases e with
        | numbered id => exact absurd rfl (hnot id)
        | _ => rfl
      rw [hskip]
      rwa [hid] at ih

theorem nextId_iterate (k : ℕ) : nextId^[k + 1] 1 = (k + 1) % 65535 + 1 := by
  induction k with
  | zero => rfl
  | succ k ih =>
    rw [Function.iterate_succ_apply', ih]
    unfold nextId maxPacketId
    split_ifs
    all_goals omega

/-- The identifiers run through 2, 3, …, 65535, 1, 2, …, so that 0 is never taken and no identifier is taken again
before 65534 others. -/
theorem History.identifiers_eq (hE : E.Quiet) (h : History E charSigned es) :
    identifiers es = (List.range (identifiers es).length).map fun k => (k + 1) % 65535 + 1 := by
  obtain ⟨s, hs⟩ := h.run hE
  have hiterate : (fun k => nextId^[k + 1] (Session.init : Session η).id) = fun k => (k + 1) % 65535 + 1 :=
    funext nextId_iterate
  rw [← hiterate]
  exact identifiers_of_trace hs

theorem History.identifiers_eq_script : identifiers scriptEvents = [2, 3] := by
  rw [script_history.identifiers_eq (script_quiet _)]
  decide

theorem packetType_of_carries (h : Carries packet) :
    packetType packet = some subscribe ∨ packetType packet = some unsubscribe ∨ packetType packet = some publish := by
  obtain ⟨header, hheader, htype⟩ := h
  unfold packetType
  rw [Option.mem_def.mp hheader, Option.map_some]
  rcases htype with h | h | ⟨h, -⟩
  · exact .inl (congrArg some h)
  · exact .inr (.inl (congrArg some h))
  · exact .inr (.inr (congrArg some h))

/-- Only a request carries an identifier of the client, and it is a fresh one. -/
theorem request_of_carries (h : Session.Step s (.sent packet complete) s') (hcarries : Carries packet) :
    (∃ awaited, Request s.id packet awaited) ∧ s.fresh = true ∧ s'.fresh = false := by
  have htype := packetType_of_carries hcarries
  cases h with
  | answered id complete hphase hserved hreply hid =>
    obtain ⟨hpacket, hk⟩ := packetType_reply hreply
    rw [hpacket] at htype
    rcases hk with rfl | rfl | rfl
    all_goals exact absurd htype (by decide)
  | connect complete hfree hconnected hhead =>
    rw [packetType_connect hhead] at htype
    exact absurd htype (by decide)
  | request complete hfree hconnected hrequest hfresh =>
    refine ⟨⟨_, hrequest⟩, hfresh hcarries, ?_⟩
    rw [decide_eq_true hcarries, Bool.not_true, Bool.and_false]
  | ping complete hfree hpinged => exact absurd htype (by decide)
  | disconnect complete hfree => exact absurd htype (by decide)

theorem numbered_of_fresh {e : Event η} {id : ℕ} (h : Session.Step s e s') (hnot : ¬ (s.fresh = true ∧ s.id = id))
    (hfresh : s'.fresh = true ∧ s'.id = id) : e = .numbered id := by
  cases h with
  | numbered hfree =>
    obtain ⟨-, rfl⟩ := hfresh
    rfl
  | request complete hfree hconnected hrequest hcarries =>
    obtain ⟨htrue, hid⟩ := hfresh
    exact absurd ⟨(Bool.and_eq_true_iff.mp htrue).1, hid⟩ hnot
  | _ => exact absurd hfresh hnot

theorem nextId_ne (id : ℕ) : nextId id ≠ id := by
  unfold nextId maxPacketId
  split_ifs
  all_goals omega

/-- Every packet that carries an identifier of the client carries the one that was taken last, which no other packet
has carried. -/
theorem History.request_numbered (hE : E.Quiet) (h : History E charSigned (as ++ .sent packet complete :: bs))
    (hcarries : Carries packet) : ∃ xs id ys awaited, as = xs ++ .numbered id :: ys ∧ Request id packet awaited ∧
      ∀ e ∈ ys, (∀ id', e ≠ .numbered id') ∧
        ∀ packet' complete', e = .sent packet' complete' → ¬ Carries packet' := by
  obtain ⟨s, t, u, hs, hstep, -⟩ := h.at hE
  obtain ⟨⟨awaited, hrequest⟩, hfresh, -⟩ := request_of_carries hstep hcarries
  have hinit : ¬ ((Session.init : Session η).fresh = true ∧ (Session.init : Session η).id = s.id) := by
    rintro ⟨⟨⟩, -⟩
  obtain ⟨xs, e, ys, v, v', rfl, -, hv, hnumbered, hv', hsince⟩ :=
    Trace.since (P := fun t => t.fresh = true ∧ t.id = s.id) hs hinit ⟨hfresh, rfl⟩
  obtain rfl := numbered_of_fresh hnumbered hv hv'
  refine ⟨xs, s.id, ys, awaited, rfl, hrequest, fun e he => ?_⟩
  obtain ⟨t₁, t₂, ⟨-, hid⟩, hstep', hfresh', hid'⟩ := hsince.step_of_mem he
  constructor
  · rintro id' rfl
    rcases numbered_or_id hstep' with ⟨-, hnext⟩ | ⟨hnot, -⟩
    · rw [hid', hid] at hnext
      exact nextId_ne s.id hnext.symm
    · exact hnot id' rfl
  · rintro packet' complete' rfl hcarries'
    rw [(request_of_carries hstep' hcarries').2.2] at hfresh'
    cases hfresh'

theorem History.request_numbered_script : ∃ xs id ys awaited, scriptEvents.take 8 = xs ++ .numbered id :: ys ∧
    Request id [162, 5, 0, 3, 0, 1, 97] awaited ∧ ∀ e ∈ ys, (∀ id', e ≠ .numbered id') ∧
      ∀ packet' complete', e = .sent packet' complete' → ¬ Carries packet' := by
  have h : History (script fun _ => 0) false
    (scriptEvents.take 8 ++ .sent [162, 5, 0, 3, 0, 1, 97] true :: scriptEvents.drop 9) := script_history
  exact h.request_numbered (script_quiet _) (by decide)

def registrations (es : List (Event η)) : List (List UInt8 × Option η) :=
  es.filterMap fun e => match e with
    | .registered topicFilter fp => some (topicFilter, fp)
    | _ => none

theorem handlers_of_trace (h : Trace Session.Step s es s') : s'.handlers = s.handlers ++ registrations es := by
  induction h with
  | nil => exact (List.append_nil _).symm
  | @cons s t u e es hfirst _ ih =>
    have hstep : t.handlers = s.handlers ++ registrations [e] := by
      cases hfirst with
      | registered => rfl
      | _ => exact (List.append_nil _).symm
    have happend : registrations (e :: es) = registrations [e] ++ registrations es :=
      List.filterMap_append (l := [e])
    rw [ih, hstep, happend, List.append_assoc]

/-- No more handlers are ever registered than the table has places: the client gives no place back. -/
theorem History.length_registrations_le (hE : E.Quiet) (h : History E charSigned es) :
    (registrations es).length ≤ maxMessageHandlers := by
  obtain ⟨s, hs⟩ := h.run hE
  have hle : s.handlers.length ≤ maxMessageHandlers := by
    refine Trace.preserves (I := fun s => s.handlers.length ≤ maxMessageHandlers) ?_ (Nat.zero_le _) hs
    intro t e v _ ht hstep
    cases hstep with
    | registered topicFilter fp hfree hconnected hpending hgot hroom =>
      rw [List.length_append, List.length_singleton]
      exact hroom
    | _ => exact ht
  rwa [handlers_of_trace hs] at hle

theorem History.length_registrations_le_script : (registrations scriptEvents).length ≤ maxMessageHandlers :=
  script_history.length_registrations_le (script_quiet _)

def Event.isDelivered : Event η → Bool
  | .delivered _ _ _ => true
  | _ => false

theorem calls_of_trace {header : UInt8} {body : List UInt8} {calls ds : List (Event η)}
    (h : Trace Session.Step s ds s') (hphase : s.phase = .handling header body calls)
    (hds : ∀ d ∈ ds, d.isDelivered = true) : s'.phase = .handling header body (calls ++ ds) := by
  induction h generalizing calls with
  | nil => rwa [List.append_nil]
  | @cons s t u d ds hfirst _ ih =>
    have hd := hds d List.mem_cons_self
    have hnext : t.phase = .handling header body (calls ++ [d]) := by
      cases hfirst with
      | delivered fp topic payload hbefore htype hfp hdue =>
        rw [hbefore] at hphase
        cases hphase
        rfl
      | _ => cases hd
    rw [List.append_cons]
    exact ih hnext fun d hd => hds d (List.mem_cons_of_mem _ hd)

theorem History.handled (hE : E.Quiet) {header : UInt8} {body : List UInt8} {ds : List (Event η)} {e : Event η}
    (h : History E charSigned (as ++ .received header body :: (ds ++ e :: bs)))
    (hds : ∀ d ∈ ds, d.isDelivered = true) :
    ∃ s s', Session.Step s e s' ∧ s.phase = .handling header body ds ∧ s.handlers = registrations as := by
  obtain ⟨s, t, u, hs, hreceived, hrest⟩ := h.at hE
  obtain ⟨v, hv, hafter⟩ := hrest.split
  have hphase : t.phase = .handling header body [] := by
    cases hreceived
    rfl
  have hhandlers : t.handlers = registrations as := by
    have hstart := handlers_of_trace hs
    cases hreceived
    exact hstart
  have hnone : registrations ds = [] := by
    apply List.filterMap_eq_nil_iff.mpr
    intro d hd
    have hdelivered := hds d hd
    cases d with
    | delivered => rfl
    | _ => cases hdelivered
  cases hafter with
  | cons hstep _ =>
    refine ⟨v, _, hstep, calls_of_trace hv hphase hds, ?_⟩
    rw [handlers_of_trace hv, hhandlers, hnone, List.append_nil]

def IsAck (packet : List UInt8) : Prop :=
  packetType packet = some puback ∨ packetType packet = some pubrec ∨ packetType packet = some pubrel

theorem answered_of_isAck (h : Session.Step s (.sent packet complete) s') (hack : IsAck packet) :
    ∃ header body calls k id, s.phase = .handling header body calls ∧ reply header = some k ∧
      packet = ackPacket k 0 id ∧ (∀ id', Identified header body id' → id = id') ∧
        ∀ calls', s'.phase ≠ .handling header body calls' := by
  unfold IsAck at hack
  cases h with
  | @answered header body calls k id complete hphase hserved hreply hid =>
    refine ⟨header, body, calls, k, id, hphase, hreply, rfl, hid, fun calls' => ?_⟩
    cases complete
    all_goals rintro ⟨⟩
  | connect complete hfree hconnected hhead =>
    rw [packetType_connect hhead] at hack
    exact absurd hack (by decide)
  | request complete hfree hconnected hrequest hfresh =>
    rcases packetType_request hrequest with htype | htype | htype
    all_goals
      rw [htype] at hack
      exact absurd hack (by decide)
  | ping complete hfree hpinged => exact absurd hack (by decide)
  | disconnect complete hfree => exact absurd hack (by decide)

/-- Every acknowledgement that is sent answers a packet that was received before and asks for it, with the identifier
of that packet, and none has been sent between the two: no packet is answered twice. -/
theorem History.ack_answers (hE : E.Quiet) (h : History E charSigned (as ++ .sent packet complete :: bs))
    (hack : IsAck packet) :
    ∃ xs header body ys k id, as = xs ++ .received header body :: ys ∧ reply header = some k ∧
      packet = ackPacket k 0 id ∧ (∀ id', Identified header body id' → id = id') ∧
        ∀ packet' complete', .sent packet' complete' ∈ ys → ¬ IsAck packet' := by
  obtain ⟨s, t, u, hs, hstep, -⟩ := h.at hE
  obtain ⟨header, body, calls, k, id, hphase, hreply, hpacket, hid, -⟩ := answered_of_isAck hstep hack
  have hinit : ¬ ∃ calls, (Session.init : Session η).phase = .handling header body calls := by
    rintro ⟨_, ⟨⟩⟩
  obtain ⟨xs, e, ys, v, v', rfl, -, hv, hreceived, ⟨calls', hv'⟩, hsince⟩ :=
    Trace.since (P := fun s => ∃ calls, s.phase = .handling header body calls) hs hinit ⟨calls, hphase⟩
  obtain rfl := received_of_handling hreceived hv hv'
  refine ⟨xs, header, body, ys, k, id, rfl, hreply, hpacket, hid, ?_⟩
  intro packet' complete' he hack'
  obtain ⟨t₁, t₂, ⟨c₁, h₁⟩, hstep', c₂, h₂⟩ := hsince.step_of_mem he
  obtain ⟨header', body', c₃, -, -, h₃, -, -, -, hend⟩ := answered_of_isAck hstep' hack'
  rw [h₁] at h₃
  cases h₃
  exact hend c₂ h₂

theorem History.ack_answers_script : ∃ xs header body ys k id,
    scriptEvents.take 11 = xs ++ .received header body :: ys ∧ reply header = some k ∧
      [64, 2, 0, 5] = ackPacket k 0 id ∧ (∀ id', Identified header body id' → id = id') ∧
        ∀ packet' complete', .sent packet' complete' ∈ ys → ¬ IsAck packet' := by
  have h : History (script fun _ => 0) false
    (scriptEvents.take 11 ++ .sent [64, 2, 0, 5] true :: scriptEvents.drop 12) := script_history
  exact h.ack_answers (script_quiet _) (.inl (by decide))

theorem pinged_of_pingreq (h : Session.Step s (.sent packet complete) s')
    (hpacket : packetType packet = some pingreq) : s.pinged = false ∧ s'.pinged = complete := by
  cases h with
  | answered id complete hphase hserved hreply hid =>
    obtain ⟨htype, hk⟩ := packetType_reply hreply
    rw [htype] at hpacket
    obtain rfl := Option.some.inj hpacket
    exact absurd hk (by decide)
  | connect complete hfree hconnected hhead =>
    rw [packetType_connect hhead] at hpacket
    exact absurd hpacket (by decide)
  | request complete hfree hconnected hrequest hfresh =>
    have htype := packetType_request hrequest
    rw [hpacket] at htype
    exact absurd htype (by decide)
  | ping complete hfree hpinged => exact ⟨hpinged, rfl⟩
  | disconnect complete hfree => exact absurd hpacket (by decide)

/-- Behind a PINGREQ that was sent as a whole there is no second one before a PINGRESP has been received. -/
theorem History.pingresp_between (hE : E.Quiet) {packet' : List UInt8} {complete' : Bool} {cs : List (Event η)}
    (h : History E charSigned (as ++ .sent packet true :: (bs ++ .sent packet' complete' :: cs)))
    (hping : packetType packet = some pingreq) (hping' : packetType packet' = some pingreq) :
    ∃ xs header body ys, bs = xs ++ .received header body :: ys ∧ MQTTHeader.type header = pingresp := by
  obtain ⟨s, t, u, -, hstep, hrest⟩ := h.at hE
  obtain ⟨v, hv, hafter⟩ := hrest.split
  have ht : ¬ t.pinged = false := by
    rw [(pinged_of_pingreq hstep hping).2]
    decide
  have hpinged : v.pinged = false := by
    cases hafter with
    | cons hstep' _ => exact (pinged_of_pingreq hstep' hping').1
  obtain ⟨xs, e, ys, t₁, t₂, rfl, -, h₁, hchange, h₂, -⟩ :=
    Trace.since (P := fun s => s.pinged = false) hv ht hpinged
  cases hchange with
  | received header body hfree =>
    refine ⟨xs, header, body, ys, rfl, ?_⟩
    rcases Bool.and_eq_false_iff.mp h₂ with hfalse | htype
    · exact absurd hfalse h₁
    · exact bne_eq_false_iff_eq.mp htype
  | ping complete hfree hnot => exact absurd hnot h₁
  | _ => exact absurd h₂ h₁

/-- Two pings, with a PINGRESP between them. -/
theorem History.pingresp_between_script : ∃ xs header body ys,
    [(.received 208 [] : Event ℕ)] = xs ++ .received header body :: ys ∧ MQTTHeader.type header = pingresp := by
  have h : History (script fun n => if 3 ≤ n then 0 else if 1 ≤ n then 70000 else 200000) false
      ([.sent [16, 12, 0, 4, 77, 81, 84, 84, 4, 2, 0, 60, 0, 0] true, .received 32 [0, 0], .accepted] ++
        .sent [192, 0] true :: ([.received 208 []] ++ .sent [192, 0] true :: [])) := by
    refine ⟨4, scriptClient, 1000, 100, 50, 200, 50, fun _ => 0, [[32], [2], [0, 0], [], [208], [0]],
      [.connect none, .yield 1000, .yield 1000], .inl (by decide), ?_⟩
    decide +kernel
  exact h.pingresp_between (script_quiet _) (by decide) (by decide)

end EmbeddedTemplate.Mqtt
