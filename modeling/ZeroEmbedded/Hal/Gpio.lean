import ZeroEmbedded.Foundation.Runs
import ZeroEmbedded.Types

/-!
# The virtual pins

`gpio.c`. Eight words of sixteen bits are 128 pins: whatever is done to the
other pins, a pin shows what the calls on itself make of it, and a call on a pin
that does not exist does nothing.

## Implementation notes

The pull and the speed of a pin descriptor are not read by any function.
-/

namespace ZeroEmbedded.Gpio

open Foundation

/-- `fw_gpio_mode_t`. -/
inductive FwGpioMode
  | input
  | outputPp
  | outputOd
  | afPp
  | afOd
  | analog
  deriving DecidableEq, Repr

/-- The two modes that `fw_gpio_init` takes for an output. -/
def FwGpioMode.isOutput (mode : FwGpioMode) : Bool := mode = .outputPp ∨ mode = .outputOd

/-- `fw_gpio_t`. -/
structure FwGpio where
  port : Nat
  pin : Nat
  mode : FwGpioMode
  deriving DecidableEq, Repr

/-- `s_virtual_gpio_state` and `s_virtual_gpio_dir`. -/
structure VirtualGpio where
  state : Fin 8 → BitVec 16
  dir : Fin 8 → BitVec 16

/-- `1U << pin`. -/
def pinMask (pin : Nat) : BitVec 16 := 1#16 <<< pin

/-- `word |= mask` or `word &= ~mask`. -/
def putBit (word : BitVec 16) (pin : Nat) (state : Bool) : BitVec 16 :=
  if state then word ||| pinMask pin else word &&& ~~~pinMask pin

/-- `fw_gpio_init`. -/
def fwGpioInit (s : VirtualGpio) (pin : FwGpio) : FwStatus × VirtualGpio :=
  if h : pin.port ≥ 8 ∨ pin.pin ≥ 16 then (.errInvalidArg, s)
  else
    let port : Fin 8 := ⟨pin.port, by omega⟩
    (.ok, { s with
      dir := Function.update s.dir port (putBit (s.dir port) pin.pin pin.mode.isOutput) })

/-- What `fw_gpio_write` and `fw_gpio_mock_set_input` do. -/
def putState (s : VirtualGpio) (port pin : Nat) (state : Bool) : VirtualGpio :=
  if h : port ≥ 8 ∨ pin ≥ 16 then s
  else
    let port : Fin 8 := ⟨port, by omega⟩
    { s with state := Function.update s.state port (putBit (s.state port) pin state) }

/-- `fw_gpio_write`. -/
def fwGpioWrite (s : VirtualGpio) (pin : FwGpio) (state : Bool) : VirtualGpio :=
  putState s pin.port pin.pin state

/-- `fw_gpio_mock_set_input`. -/
def fwGpioMockSetInput (s : VirtualGpio) (port pin : Nat) (state : Bool) : VirtualGpio :=
  putState s port pin state

/-- `fw_gpio_read`. -/
def fwGpioRead (s : VirtualGpio) (pin : FwGpio) : Bool :=
  if h : pin.port ≥ 8 ∨ pin.pin ≥ 16 then false
  else s.state ⟨pin.port, by omega⟩ &&& pinMask pin.pin != 0

/-- `fw_gpio_toggle`. -/
def fwGpioToggle (s : VirtualGpio) (pin : FwGpio) : VirtualGpio :=
  if h : pin.port ≥ 8 ∨ pin.pin ≥ 16 then s
  else
    let port : Fin 8 := ⟨pin.port, by omega⟩
    { s with state := Function.update s.state port (s.state port ^^^ pinMask pin.pin) }

/-- `fw_gpio_mock_get_port`. -/
def fwGpioMockGetPort (s : VirtualGpio) (port : Nat) : BitVec 16 :=
  if h : port ≥ 8 then 0 else s.state ⟨port, by omega⟩

/-- The calls that may change a pin. -/
inductive GpioCall
  | init (pin : FwGpio)
  | write (pin : FwGpio) (state : Bool)
  | toggle (pin : FwGpio)
  | setInput (port pin : Nat) (state : Bool)
  deriving DecidableEq, Repr

def GpioCall.apply (s : VirtualGpio) : GpioCall → VirtualGpio
  | .init pin => (fwGpioInit s pin).2
  | .write pin state => fwGpioWrite s pin state
  | .toggle pin => fwGpioToggle s pin
  | .setInput port pin state => fwGpioMockSetInput s port pin state

inductive GpioStep : VirtualGpio → GpioCall → VirtualGpio → Prop
  | call (s : VirtualGpio) (call : GpioCall) : GpioStep s call (call.apply s)

/-- A pin on its own: its level, and whether it is an output. -/
structure PinView where
  level : Bool
  output : Bool
  deriving DecidableEq, Repr

/-- The port and the pin of a call. -/
def GpioCall.address : GpioCall → Nat × Nat
  | .init pin | .write pin _ | .toggle pin => (pin.port, pin.pin)
  | .setInput port pin _ => (port, pin)

/-- What a call does to its own pin. -/
def PinView.after (v : PinView) : GpioCall → PinView
  | .init pin => { v with output := pin.mode.isOutput }
  | .write _ state | .setInput _ _ state => { v with level := state }
  | .toggle _ => { v with level := !v.level }

/-- What is stored for a pin. -/
def VirtualGpio.view (s : VirtualGpio) (port : Fin 8) (pin : Fin 16) : PinView :=
  ⟨(s.state port).getLsbD pin, (s.dir port).getLsbD pin⟩

section Bits

variable {pin : Fin 16}

theorem getLsbD_pinMask (p : Nat) (pin : Fin 16) :
    (pinMask p).getLsbD pin = decide (p = pin.val) := by
  change (BitVec.twoPow 16 p).getLsbD pin = _
  rw [BitVec.getLsbD_twoPow]
  by_cases heq : p = pin.val
  · rw [decide_eq_true heq, heq, decide_eq_true pin.isLt]
    rfl
  · rw [decide_eq_false heq, Bool.and_false]

theorem getLsbD_putBit (word : BitVec 16) (p : Nat) (state : Bool) (pin : Fin 16) :
    (putBit word p state).getLsbD pin = if p = pin.val then state else word.getLsbD pin := by
  rw [putBit]
  cases state with
  | true =>
      rw [if_pos rfl, BitVec.getLsbD_or, getLsbD_pinMask]
      by_cases heq : p = pin.val <;> simp [heq]
  | false =>
      rw [if_neg Bool.false_ne_true, BitVec.getLsbD_and, BitVec.getLsbD_not, getLsbD_pinMask,
        decide_eq_true pin.isLt]
      by_cases heq : p = pin.val <;> simp [heq]

theorem getLsbD_toggled (word : BitVec 16) (p : Nat) (pin : Fin 16) :
    (word ^^^ pinMask p).getLsbD pin =
      if p = pin.val then !word.getLsbD pin else word.getLsbD pin := by
  rw [BitVec.getLsbD_xor, getLsbD_pinMask]
  by_cases heq : p = pin.val <;> simp [heq]

/-- A word has a bit of the mask when its own bit is set. -/
theorem and_pinMask_ne (word : BitVec 16) (pin : Fin 16) :
    (word &&& pinMask pin.val != 0) = word.getLsbD pin := by
  have hbits : ∀ i : Fin 16, (word &&& pinMask pin.val).getLsbD i =
      if pin = i then word.getLsbD i else false := by
    intro i
    rw [BitVec.getLsbD_and, getLsbD_pinMask]
    by_cases heq : pin = i
    · simp [heq]
    · rw [if_neg heq, decide_eq_false fun h => heq (Fin.ext h), Bool.and_false]
  cases hbit : word.getLsbD pin with
  | true =>
      refine bne_iff_ne.mpr fun hzero => ?_
      have hpin := hbits pin
      rw [hzero, if_pos rfl, hbit] at hpin
      exact Bool.noConfusion (hpin.symm.trans (BitVec.getLsbD_zero))
  | false =>
      have hzero : word &&& pinMask pin.val = 0 := by
        apply BitVec.eq_of_getLsbD_eq
        intro i hi
        rw [hbits ⟨i, hi⟩]
        split
        · next heq =>
            rw [← heq, hbit]
            exact BitVec.getLsbD_zero.symm
        · exact BitVec.getLsbD_zero.symm
      rw [hzero]
      rfl

/-- An update of one bit of one word changes one pin. -/
theorem getLsbD_update (words : Fin 8 → BitVec 16) (port : Fin 8) {p q : Nat} (hp : p < 8)
    (bit : Bool → Bool) {change : BitVec 16 → BitVec 16}
    (hchange : ∀ word, (change word).getLsbD pin =
      if q = pin.val then bit (word.getLsbD pin) else word.getLsbD pin) :
    (Function.update words ⟨p, hp⟩ (change (words ⟨p, hp⟩)) port).getLsbD pin =
      if (p, q) = (port.val, pin.val) then bit ((words port).getLsbD pin)
      else (words port).getLsbD pin := by
  rw [Function.update_apply]
  by_cases hport : port = ⟨p, hp⟩
  · rw [if_pos hport, hchange, hport]
    by_cases hpin : q = pin.val
    · rw [if_pos hpin, if_pos (by rw [hpin])]
    · rw [if_neg hpin, if_neg fun heq => hpin (Prod.mk.inj heq).2]
  · rw [if_neg hport, if_neg fun heq => hport (Fin.ext (Prod.mk.inj heq).1.symm)]

theorem address_ne {p q : Nat} (h : p ≥ 8 ∨ q ≥ 16) (port : Fin 8) (pin : Fin 16) :
    (p, q) ≠ (port.val, pin.val) := by
  intro heq
  obtain ⟨rfl, rfl⟩ := Prod.mk.inj heq
  omega

theorem view_putState (s : VirtualGpio) (p q : Nat) (state : Bool) (port : Fin 8) (pin : Fin 16) :
    (putState s p q state).view port pin =
      if (p, q) = (port.val, pin.val) then { s.view port pin with level := state }
      else s.view port pin := by
  rw [putState]
  split
  · next h => rw [if_neg (address_ne h port pin)]
  · next h =>
      have hp : p < 8 := by omega
      have hbit := getLsbD_update s.state port hp (fun _ => state)
        fun word => getLsbD_putBit word q state pin
      rw [VirtualGpio.view, hbit]
      split <;> rfl

theorem view_init (s : VirtualGpio) (desc : FwGpio) (port : Fin 8) (pin : Fin 16) :
    (fwGpioInit s desc).2.view port pin =
      if (desc.port, desc.pin) = (port.val, pin.val) then
        { s.view port pin with output := desc.mode.isOutput }
      else s.view port pin := by
  rw [fwGpioInit]
  split
  · next h => rw [if_neg (address_ne h port pin)]
  · next h =>
      have hp : desc.port < 8 := by omega
      have hbit := getLsbD_update s.dir port hp (fun _ => desc.mode.isOutput)
        fun word => getLsbD_putBit word desc.pin desc.mode.isOutput pin
      rw [VirtualGpio.view, hbit]
      split <;> rfl

theorem view_toggle (s : VirtualGpio) (desc : FwGpio) (port : Fin 8) (pin : Fin 16) :
    (fwGpioToggle s desc).view port pin =
      if (desc.port, desc.pin) = (port.val, pin.val) then
        { s.view port pin with level := !(s.view port pin).level }
      else s.view port pin := by
  rw [fwGpioToggle]
  split
  · next h => rw [if_neg (address_ne h port pin)]
  · next h =>
      have hp : desc.port < 8 := by omega
      have hbit := getLsbD_update s.state port hp (fun level => !level)
        fun word => getLsbD_toggled word desc.pin pin
      rw [VirtualGpio.view, hbit]
      split <;> rfl

/-- A call changes the pin that it is made on, and no other one. -/
theorem view_apply (s : VirtualGpio) (call : GpioCall) (port : Fin 8) (pin : Fin 16) :
    (call.apply s).view port pin =
      if call.address = (port.val, pin.val) then (s.view port pin).after call
      else s.view port pin := by
  cases call with
  | init desc => exact view_init s desc port pin
  | write desc state => exact view_putState s desc.port desc.pin state port pin
  | toggle desc => exact view_toggle s desc port pin
  | setInput p q state => exact view_putState s p q state port pin

theorem fwGpioRead_eq (s : VirtualGpio) (desc : FwGpio) :
    fwGpioRead s desc = if h : desc.port < 8 ∧ desc.pin < 16 then
      (s.view ⟨desc.port, h.1⟩ ⟨desc.pin, h.2⟩).level else false := by
  rw [fwGpioRead]
  by_cases h : desc.port < 8 ∧ desc.pin < 16
  · rw [dif_neg (by omega), dif_pos h]
    exact and_pinMask_ne _ ⟨desc.pin, h.2⟩
  · rw [dif_pos (by omega), dif_neg h]

theorem fwGpioInit_ok_iff (s : VirtualGpio) (desc : FwGpio) :
    (fwGpioInit s desc).1 = .ok ↔ desc.port < 8 ∧ desc.pin < 16 := by
  rw [fwGpioInit]
  split
  · next h => exact iff_of_false (fun hok => nomatch hok) (by omega)
  · next h => exact iff_of_true rfl (by omega)

end Bits

section Runs

variable {s s' : VirtualGpio} {es : List GpioCall}

/-- Every pin is what the calls on itself have made of it. -/
theorem run_view (run : Run GpioStep s es s') (port : Fin 8) (pin : Fin 16) :
    s'.view port pin = (es.filter fun call => call.address = (port.val, pin.val)).foldl
      PinView.after (s.view port pin) := by
  refine run.invariant (fun t es => t.view port pin =
    (es.filter fun call => call.address = (port.val, pin.val)).foldl PinView.after
      (s.view port pin)) rfl ?_
  intro t es call u ih step
  cases step
  rw [view_apply, ih, List.filter_append, List.foldl_append, List.filter_singleton]
  by_cases haddress : call.address = (port.val, pin.val)
  · rw [if_pos haddress, decide_eq_true haddress]
    rfl
  · rw [if_neg haddress, decide_eq_false haddress]
    rfl

/-- In every run the eight words are 128 independent pins: the level and the direction of a pin
are what the calls on this pin alone make of them, in their order. A read and the word of a port
show the levels, a pin that does not exist reads as low and is rejected by `fw_gpio_init`, and
calls on it change no pin. -/
theorem fwGpio_independentPins (run : Run GpioStep s es s') :
    (∀ port pin, s'.view port pin =
        (es.filter fun call => call.address = (port.val, pin.val)).foldl PinView.after
          (s.view port pin)) ∧
      (∀ desc, fwGpioRead s' desc = if h : desc.port < 8 ∧ desc.pin < 16 then
        (s'.view ⟨desc.port, h.1⟩ ⟨desc.pin, h.2⟩).level else false) ∧
      (∀ (port : Fin 8) (pin : Fin 16),
        (fwGpioMockGetPort s' port).getLsbD pin = (s'.view port pin).level) ∧
      ∀ desc, (fwGpioInit s' desc).1 = .ok ↔ desc.port < 8 ∧ desc.pin < 16 := by
  refine ⟨run_view run, fwGpioRead_eq s', ?_, fwGpioInit_ok_iff s'⟩
  intro port pin
  rw [fwGpioMockGetPort, dif_neg (by omega)]
  rfl

/-- Two pins of one port, and a pin of a port that does not exist. -/
theorem fwGpio_independentPins_sample :
    let s : VirtualGpio := ⟨fun _ => 0, fun _ => 0⟩
    let led : FwGpio := ⟨0, 5, .outputPp⟩
    let es : List GpioCall :=
      [.init led, .write led true, .setInput 0 6 true, .toggle ⟨15, 5, .input⟩, .toggle led]
    ∃ s', Run GpioStep s es s' ∧ fwGpioRead s' led = false ∧
      s'.view ⟨0, by decide⟩ ⟨6, by decide⟩ = ⟨true, false⟩ ∧
      s'.view ⟨0, by decide⟩ ⟨5, by decide⟩ = ⟨false, true⟩ := by
  intro s led es
  have run := ((((Run.nil s).snoc (GpioStep.call s (.init led))).snoc
    (.call _ (.write led true))).snoc (.call _ (.setInput 0 6 true))).snoc
    (.call _ (.toggle ⟨15, 5, .input⟩)) |>.snoc (.call _ (.toggle led))
  have hpins := fwGpio_independentPins run
  refine ⟨_, run, ?_, ?_, ?_⟩
  · rw [hpins.2.1, dif_pos (by decide), hpins.1]
    rfl
  · rw [hpins.1]
    decide
  · rw [hpins.1]
    decide

end Runs

end ZeroEmbedded.Gpio
