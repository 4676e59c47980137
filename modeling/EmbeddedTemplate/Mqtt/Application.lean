import EmbeddedTemplate.Mqtt.Conformance

/-! The loop of the application `bms_mqtt`, and what its client makes of a network on which nothing arrives. -/
namespace EmbeddedTemplate.Mqtt

open ByteMem Hoare

section
variable {ω η : Type} (E : Env ω η) (charSigned : Bool) (rounds : ℕ)

/-- `"test/d"` and `"test/u"`. -/
def testD : List UInt8 := [116, 101, 115, 116, 47, 100]
def testU : List UInt8 := [116, 101, 115, 116, 47, 117]

def outside (f : ω → ω) : Run ω η Unit := .of fun w => ((), { w with env := f w.env })

/-- The loop of `mqtt_run`, with its counter and its message. -/
def runLoop (payload : ℕ) : ℕ → ℤ → Message → Run ω η Unit
  | 0, _, _ => .stop
  | n + 1, i, msg => do
    let text := ("hello, mqtt " ++ toString i).toUTF8.toList
    let m ← memory
    setMemory (write m payload (text ++ [0]))
    let r ← mqttPublish E rounds testU { msg with payload := payload, payloadlen := text.length }
    let _ ← mqttYield E rounds 20000
    let rc ← mqttYield E rounds 20000
    if rc = success then runLoop payload n (i + 1) r.2
    else return ()

/-- `mqtt_run`. The three functions are the connection of the network, `os_sleep` and the disconnection. -/
def mqttRun (connectNetwork sleep disconnectNetwork : ω → ω) (payload : ℕ) (i : ℤ) (msg : Message) (handler : η) :
    Run ω η Unit := do
  outside connectNetwork
  outside sleep
  let _ ← mqttConnect E rounds none
  let _ ← mqttSubscribe E rounds charSigned testD .qos1 (some handler)
  runLoop E rounds payload rounds i msg
  outside disconnectNetwork

end
variable {ω η : Type} {E : Env ω η} {charSigned : Bool} {rounds n : ℕ} {timer : Timer} {w : World ω η}

def Dead (E : Env ω η) : Prop := ∀ s timeout, (E.read s 1 timeout).2.1 ≠ 1

theorem readPacket_dead (h : Dead E) : wp (fun _ => True) (readPacket E timer) (fun r _ => r = failure) w := by
  unfold readPacket
  simp only [client, timerLeftMs, osGetTime, netRead, wp_bind, wp_of, wp_pure]
  exact wp_ite.mpr ⟨fun _ => .pure rfl, fun hone => absurd (not_not.mp hone) (h _ _)⟩

/-- `FAILURE` of `readPacket` becomes 65535, which is not `FAILURE`. -/
theorem cycle_dead (h : Dead E) : wp (fun _ => True) (cycle E rounds timer) (fun r _ => r = 65535) w := by
  have htype : (failure % 65536).toNat = 65535 := by decide
  unfold cycle
  rw [wp_bind]
  apply wp_mono (readPacket_dead h)
  rintro _ w₁ rfl
  simp only [htype]
  refine wp_ite.mpr ⟨fun hk => absurd hk (by decide), fun _ => wp_ite.mpr ⟨fun hk => absurd hk (by decide), fun _ =>
    wp_ite.mpr ⟨fun hk => absurd hk (by decide), fun _ => ?_⟩⟩⟩
  unfold cycleEnd
  rw [wp_bind]
  apply wp_mono wp_true
  intro _ _ _
  exact .pure rfl

theorem yieldLoop_dead (h : Dead E) :
    wp (fun _ => True) (yieldLoop E rounds timer n) (fun r _ => r = success) w := by
  induction n generalizing w with
  | zero => exact .stop trivial
  | succ n ih =>
    unfold yieldLoop
    rw [wp_bind]
    apply wp_mono (cycle_dead h)
    rintro _ w₁ rfl
    refine wp_ite.mpr ⟨fun hk => absurd hk (by decide), fun _ => ?_⟩
    rw [wp_bind]
    apply wp_mono wp_true
    intro expired w₂ _
    exact wp_ite.mpr ⟨fun _ => .pure rfl, fun _ => ih⟩

theorem mqttYield_success (h : Dead E) {timeoutMs : UInt32} :
    wp (fun _ => True) (mqttYield E rounds timeoutMs) (fun r _ => r = success) w := by
  unfold mqttYield
  rw [wp_bind]
  apply wp_mono wp_true
  intro t w₁ _
  exact yieldLoop_dead h

theorem runLoop_dead (h : Dead E) {payload : ℕ} {i : ℤ} {msg : Message} :
    wp (fun _ => True) (runLoop E rounds payload n i msg) (fun _ _ => False) w := by
  induction n generalizing w i msg with
  | zero => exact .stop trivial
  | succ n ih =>
    unfold runLoop
    simp only [memory, setMemory, wp_bind, wp_of]
    apply wp_mono wp_true
    intro r w₁ _
    apply wp_mono wp_true
    intro _ w₂ _
    apply wp_mono (mqttYield_success h)
    rintro rc w₃ rfl
    exact wp_ite.mpr ⟨fun _ => ih, fun hne => absurd rfl hne⟩

/-- On a network on which nothing arrives `MQTTYield` never returns `FAILURE`. So `mqtt_run` does not return, however
long it runs, and the application never gets to connect again. -/
theorem mqttRun_dead (h : Dead E) (connectNetwork sleep disconnectNetwork : ω → ω) (payload : ℕ) (i : ℤ)
    (msg : Message) (handler : η) (w : World ω η) :
    (∀ timeoutMs, (mqttYield E rounds timeoutMs w).1 ≠ some failure) ∧
      (mqttRun E charSigned rounds connectNetwork sleep disconnectNetwork payload i msg handler w).1 = none := by
  constructor
  · intro timeoutMs hfail
    have hyield : wp (fun _ => True) (mqttYield E rounds timeoutMs) (fun r _ => r = success) w := mqttYield_success h
    exact absurd (hyield.run.1 failure hfail) (by decide)
  · have hrun : wp (fun _ => True) (mqttRun E charSigned rounds connectNetwork sleep disconnectNetwork payload i msg
        handler) (fun _ _ => False) w := by
      unfold mqttRun
      simp only [outside, wp_bind, wp_of]
      apply wp_mono wp_true
      intro _ w₁ _
      apply wp_mono wp_true
      intro _ w₂ _
      apply wp_mono (runLoop_dead h)
      intro _ _ hfalse
      exact hfalse.elim
    cases hr : (mqttRun E charSigned rounds connectNetwork sleep disconnectNetwork payload i msg handler w).1 with
    | none => rfl
    | some a => exact (hrun.run.1 a hr).elim

/-- A network whose reads are at their end. -/
theorem mqttRun_dead_script :
    (mqttRun { script (fun _ => 0) with
        read := fun s _ _ => (s, 0, [])
        stored_le := fun _ _ _ => Nat.zero_le _ } false 100 id id id 300 0 ⟨.qos1, 1, 0, 0, 0⟩ 7
      (World.init scriptClient 1000 100 50 200 50 (fun _ => 0) [])).1 = none := by
  apply (mqttRun_dead _ id id id 300 0 ⟨.qos1, 1, 0, 0, 0⟩ 7 _).2
  intro s timeout
  exact (by decide : (0 : ℤ) ≠ 1)

end EmbeddedTemplate.Mqtt
