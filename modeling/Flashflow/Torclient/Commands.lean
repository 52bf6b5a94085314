import Flashflow.Torclient.ClientFile
import Flashflow.Torclient.Control
import Flashflow.V3bw.Lines

/-! When a command that is reported as sent was sent whole. -/
namespace Flashflow
open Outcome

/-- A call of one of the functions that send a command. -/
inductive Command where
  | authSocket
  | tellConnect (fp : Bytes) (conns : UInt32)
  | setBwRate (bw : UInt32)
  | startMeasurement (dur : UInt32)
  deriving DecidableEq, Repr

def Command.run : Command → Option ℕ → Meta → Except Abort (Bool × Bytes × Meta)
  | .authSocket => tcAuthSocket
  | .tellConnect fp conns => tcTellConnect fp conns
  | .setBwRate bw => tcSetBwRate bw
  | .startMeasurement dur => tcStartMeasurement dur

/-- What the assertions of the functions ask for. -/
def Command.Expected (x : Meta) : Command → Prop
  | .authSocket => x.state = .connected
  | .tellConnect _ conns => x.state = .authed ∧ (x.isBg = true → conns = 1)
  | .setBwRate _ => x.state = .connectedTarget
  | .startMeasurement _ => x.state = .bwSet

/-- The command with the full strings and numbers. -/
def Command.whole (x : Meta) : Command → Bytes
  | .authSocket => bytes "AUTHENTICATE \"" ++ x.pw.getD [] ++ bytes "\"\n"
  | .tellConnect fp conns => bytes "TESTSPEED " ++ fp ++ bytes " " ++ decimal conns.toNat
    ++ (if x.isBg then bytes " BG" else []) ++ bytes "\n"
  | .setBwRate bw => bytes "RESETCONF BandwidthRate=" ++ decimal bw.toNat
    ++ bytes " BandwidthBurst=" ++ decimal bw.toNat
    ++ bytes " SchedulerEchoCellMustAccumulate=" ++ decimal (if x.isBg then 1 else 32)
    ++ bytes "\n"
  | .startMeasurement dur => bytes "TESTSPEED " ++ decimal dur.toNat ++ bytes "\n"

/-- What of the buffer `msg` went out. -/
def wentOut (sent : Option ℕ) (msg : Bytes) : Bytes := msg.take (sent.getD 0)

/-- A call that returns 1 has sent all of `whole`, one that returns 0 has left the client alone. -/
def Honest (whole : Bytes) (sent : Option ℕ) (x : Meta) : Bool × Bytes × Meta → Prop
  | (true, msg, _) => wentOut sent msg = whole
  | (false, _, y) => y = x

/-- The command fits into its buffer, and its number into an `int`. -/
def Command.Fits (x : Meta) : Command → Prop
  | .authSocket => (x.pw.getD []).length ≤ 63
  | .tellConnect fp conns => ((Command.tellConnect fp conns).whole x).length ≤ 1023
  | .setBwRate _ => True
  | .startMeasurement dur => dur.toNat < 2147483648

/-- `send` or `snprintf` fails, or the command fits and `send` takes all of it. -/
def Command.Safe (sent : Option ℕ) (x : Meta) (c : Command) : Prop :=
  sent = none ∨ intMax < (c.whole x).length ∨ c.Fits x ∧ ∃ n, sent = some n ∧ (c.whole x).length ≤ n

section Sending
variable {waits : CsmState} {sent : Option ℕ} {x : Meta}

/-- `send` is only used if the text could be printed. -/
theorem sendCommand_honest_iff (sent : Option ℕ) (size : ℕ) (text whole : Bytes)
    (h : x.state.allows waits = true) :
    ∃ r, sendCommand size text waits sent x = .ok r ∧
      (Honest whole sent x r ↔ sent = none ∨ intMax < text.length ∨
        ∃ n, sent = some n ∧ (snprintf size text).take n = whole) := by
  unfold sendCommand
  by_cases hlong : intMax < text.length
  · rw [if_pos hlong]
    exact ⟨_, rfl, iff_of_true rfl (.inr (.inl hlong))⟩
  rw [if_neg hlong]
  cases sent with
  | none => exact ⟨_, rfl, iff_of_true rfl (.inl rfl)⟩
  | some n =>
    simp only [tcChangeState_eq h, bind, Except.bind, pure, Except.pure]
    refine ⟨_, rfl, ?_⟩
    simp [Honest, wentOut, hlong]

/-- What is cut twice is whole if neither cut is too short. -/
theorem snprintf_take_eq_iff {size : ℕ} {text : Bytes} (hsize : 0 < size) (n : ℕ) :
    (snprintf size text).take n = text ↔ text.length < size ∧ text.length ≤ n := by
  rw [snprintf, List.take_take, List.take_eq_self_iff]
  omega

/-- A function whose format prints the whole command. -/
theorem exact_honest_iff {c : Command} (size : ℕ) (hsize : 0 < size)
    (h : x.state.allows waits = true)
    (hrun : c.run sent x = sendCommand size (c.whole x) waits sent x)
    (hfits : (c.whole x).length < size ↔ c.Fits x) :
    ∃ r, c.run sent x = .ok r ∧ (Honest (c.whole x) sent x r ↔ c.Safe sent x) := by
  obtain ⟨r, hr, hiff⟩ := sendCommand_honest_iff sent size (c.whole x) (c.whole x) h
  refine ⟨r, hrun.trans hr, hiff.trans ?_⟩
  simp only [snprintf_take_eq_iff hsize, hfits, Command.Safe]
  refine or_congr_right (or_congr_right ?_)
  constructor
  · rintro ⟨n, hn, hfit, hle⟩
    exact ⟨hfit, n, hn, hle⟩
  · rintro ⟨hfit, n, hn, hle⟩
    exact ⟨n, hn, hfit, hle⟩

end Sending

/-! The numbers. -/

theorem length_decimal_u32 {n : ℕ} (h : n < 4294967296) : (decimal n).length ≤ 10 := by
  rw [decimal, List.length_map]
  have hn : n < 10000000000 := Nat.lt_trans h (by decide)
  exact (Nat.length_toDigits_le_iff (by decide) (by decide)).mpr hn

theorem minus_not_mem_decimal (n : ℕ) : 0x2D ∉ decimal n := by
  intro h
  have hdigit := isDigitByte_decimal h
  revert hdigit
  decide

theorem decimalInt_of_lt {dur : UInt32} (h : dur.toNat < 2147483648) :
    decimalInt dur.toInt32.toInt = decimal dur.toNat := by
  have hnat : dur.toBitVec.toNat = dur.toNat := rfl
  have hint : dur.toInt32.toInt = dur.toNat :=
    BitVec.toInt_eq_toNat_of_lt (x := dur.toBitVec) (by omega)
  rw [hint, decimalInt, if_neg (by omega), Int.natAbs_natCast]

/-- From 2^31 on `%d` prints a minus. -/
theorem decimalInt_of_ge {dur : UInt32} (h : 2147483648 ≤ dur.toNat) :
    ∃ n < 4294967296, decimalInt dur.toInt32.toInt = bytes "-" ++ decimal n := by
  have hnat : dur.toBitVec.toNat = dur.toNat := rfl
  have hlt := dur.toNat_lt
  have hint : dur.toInt32.toInt = _ := BitVec.toInt_eq_toNat_cond dur.toBitVec
  rw [hnat, if_neg (by omega)] at hint
  refine ⟨dur.toInt32.toInt.natAbs, by omega, ?_⟩
  rw [decimalInt, if_pos (by omega)]

/-- Nothing that is cut out of the command with the minus is the command. -/
theorem ne_take_negative {dur : UInt32} (h : 2147483648 ≤ dur.toNat) (size n : ℕ) :
    (snprintf size (bytes "TESTSPEED " ++ decimalInt dur.toInt32.toInt ++ bytes "\n")).take n ≠
      bytes "TESTSPEED " ++ decimal dur.toNat ++ bytes "\n" := by
  intro heq
  obtain ⟨k, -, hk⟩ := decimalInt_of_ge h
  have hpre := (List.take_prefix n _).trans (List.take_prefix (size - 1)
    (bytes "TESTSPEED " ++ decimalInt dur.toInt32.toInt ++ bytes "\n"))
  rw [← snprintf, heq, hk] at hpre
  simp only [List.append_assoc, List.prefix_append_right_inj] at hpre
  -- the first byte after the word would be both a digit and the minus
  cases hd : decimal dur.toNat with
  | nil =>
    rw [hd, List.nil_append] at hpre
    exact absurd (List.cons_prefix_cons.mp hpre).1 (by decide)
  | cons b rest =>
    rw [hd] at hpre
    have hb : b = 0x2D := (List.cons_prefix_cons.mp hpre).1
    exact minus_not_mem_decimal dur.toNat (by rw [hd, hb]; exact List.mem_cons_self)

/-- The commands that consist of fixed words and numbers fit into their buffers. -/
theorem length_whole_setBwRate (x : Meta) (bw : UInt32) :
    ((Command.setBwRate bw).whole x).length < 1024 := by
  have hbw := length_decimal_u32 bw.toNat_lt
  have hacc : (decimal (if x.isBg then 1 else 32)).length ≤ 2 := by
    split <;> decide +kernel
  have h₁ : (bytes "RESETCONF BandwidthRate=").length = 24 := by decide +kernel
  have h₂ : (bytes " BandwidthBurst=").length = 16 := by decide +kernel
  have h₃ : (bytes " SchedulerEchoCellMustAccumulate=").length = 33 := by decide +kernel
  have h₄ : (bytes "\n").length = 1 := by decide +kernel
  simp only [Command.whole, List.length_append]
  omega

theorem length_whole_startMeasurement (x : Meta) (dur : UInt32) :
    ((Command.startMeasurement dur).whole x).length < 80 := by
  have hdur := length_decimal_u32 dur.toNat_lt
  have h₁ : (bytes "TESTSPEED ").length = 10 := by decide +kernel
  have h₂ : (bytes "\n").length = 1 := by decide +kernel
  simp only [Command.whole, List.length_append]
  omega

theorem length_printed_startMeasurement {dur : UInt32} (h : 2147483648 ≤ dur.toNat) :
    (bytes "TESTSPEED " ++ decimalInt dur.toInt32.toInt ++ bytes "\n").length < 80 := by
  obtain ⟨n, hn, hprint⟩ := decimalInt_of_ge h
  have hdur := length_decimal_u32 hn
  have h₁ : (bytes "TESTSPEED ").length = 10 := by decide +kernel
  have h₂ : (bytes "-").length = 1 := by decide +kernel
  have h₃ : (bytes "\n").length = 1 := by decide +kernel
  simp only [hprint, List.length_append]
  omega

theorem length_whole_authSocket (x : Meta) :
    (Command.authSocket.whole x).length = (x.pw.getD []).length + 16 := by
  have h₁ : (bytes "AUTHENTICATE \"").length = 14 := by decide +kernel
  have h₂ : (bytes "\"\n").length = 2 := by decide +kernel
  simp only [Command.whole, List.length_append]
  omega

/-! The functions. -/

section Functions
variable {sent : Option ℕ} {x : Meta}

theorem authSocket_honest_iff (h : x.state = .connected) :
    ∃ r, Command.authSocket.run sent x = .ok r ∧
      (Honest (Command.authSocket.whole x) sent x r ↔ Command.authSocket.Safe sent x) := by
  have hallow : x.state.allows .authing = true := by rw [h]; rfl
  refine exact_honest_iff 80 (by decide) hallow ?_ ?_
  · simp only [Command.run, tcAuthSocket, tcAssertState_eq h]
    rfl
  · have hlen := length_whole_authSocket x
    simp only [Command.Fits]
    omega

theorem tellConnect_honest_iff {fp : Bytes} {conns : UInt32} (h : x.state = .authed)
    (hbg : x.isBg = true → conns = 1) :
    ∃ r, (Command.tellConnect fp conns).run sent x = .ok r ∧
      (Honest ((Command.tellConnect fp conns).whole x) sent x r ↔
        (Command.tellConnect fp conns).Safe sent x) := by
  have hallow : x.state.allows .toldConnectTarget = true := by rw [h]; rfl
  refine exact_honest_iff 1024 (by decide) hallow ?_ Nat.lt_succ_iff
  have hno : ¬ (x.isBg = true ∧ conns ≠ 1) := fun hw => hw.2 (hbg hw.1)
  simp only [Command.run, tcTellConnect, tcAssertState_eq h, failIf, if_neg hno]
  rfl

theorem setBwRate_honest_iff {bw : UInt32} (h : x.state = .connectedTarget) :
    ∃ r, (Command.setBwRate bw).run sent x = .ok r ∧
      (Honest ((Command.setBwRate bw).whole x) sent x r ↔ (Command.setBwRate bw).Safe sent x) := by
  have hallow : x.state.allows .settingBw = true := by rw [h]; rfl
  refine exact_honest_iff 1024 (by decide) hallow ?_
    (iff_of_true (length_whole_setBwRate x bw) trivial)
  simp only [Command.run, tcSetBwRate, tcAssertState_eq h]
  rfl

theorem startMeasurement_honest_iff {dur : UInt32} (h : x.state = .bwSet) :
    ∃ r, (Command.startMeasurement dur).run sent x = .ok r ∧
      (Honest ((Command.startMeasurement dur).whole x) sent x r ↔
        (Command.startMeasurement dur).Safe sent x) := by
  have hallow : x.state.allows .measuring = true := by rw [h]; rfl
  have hshort := length_whole_startMeasurement x dur
  by_cases hdur : dur.toNat < 2147483648
  · refine exact_honest_iff 80 (by decide) hallow ?_ (iff_of_true hshort hdur)
    simp only [Command.run, tcStartMeasurement, decimalInt_of_lt hdur]
    rfl
  · have hge := Nat.le_of_not_lt hdur
    obtain ⟨r, hr, hiff⟩ := sendCommand_honest_iff sent 80
      (bytes "TESTSPEED " ++ decimalInt dur.toInt32.toInt ++ bytes "\n")
      ((Command.startMeasurement dur).whole x) hallow
    have hprinted : ¬ intMax < (bytes "TESTSPEED " ++ decimalInt dur.toInt32.toInt
        ++ bytes "\n").length := by
      have hlen := length_printed_startMeasurement hge
      rw [intMax]
      omega
    have hwhole : ¬ intMax < ((Command.startMeasurement dur).whole x).length := by
      rw [intMax]
      omega
    refine ⟨r, hr, hiff.trans ?_⟩
    simp only [Command.Safe, Command.Fits, hprinted, hwhole, hdur, false_or, false_and, or_false,
      or_iff_left_iff_imp]
    rintro ⟨n, -, heq⟩
    exact absurd heq (ne_take_negative hge 80 n)

end Functions

/-- A call in the state it expects returns, and its result tells the truth if and only if the
command fits into its buffer and was taken whole, or could not be sent at all. -/
theorem command_honest_iff (c : Command) (sent : Option ℕ) (x : Meta) (h : c.Expected x) :
    ∃ r, c.run sent x = .ok r ∧ (Honest (c.whole x) sent x r ↔ c.Safe sent x) := by
  cases c with
  | authSocket => exact authSocket_honest_iff h
  | tellConnect fp conns => exact tellConnect_honest_iff h.1 h.2
  | setBwRate bw => exact setBwRate_honest_iff h
  | startMeasurement dur => exact startMeasurement_honest_iff h

/-- A client whose password has 64 bytes, one too many. -/
def longPassword : Meta where
  fd := -1
  state := .invalid
  cls := bytes "m"
  host := bytes "host"
  port := bytes "9051"
  pw := some (List.replicate 64 0x61)
  isBg := false
  currentMId := 0

/-- The setting of the rate goes out whole if `send` takes it. -/
theorem command_honest_setBwRate : ∃ r,
    (Command.setBwRate 7).run (some 78) { longPassword with state := .connectedTarget } = .ok r ∧
    Honest (bytes "RESETCONF BandwidthRate=7 BandwidthBurst=7 SchedulerEchoCellMustAccumulate=32\n")
      (some 78) { longPassword with state := .connectedTarget } r := by
  obtain ⟨r, hr, hiff⟩ := command_honest_iff (.setBwRate 7) (some 78)
    { longPassword with state := .connectedTarget } rfl
  refine ⟨r, hr, ?_⟩
  have htext : (Command.setBwRate 7).whole { longPassword with state := .connectedTarget } =
      bytes "RESETCONF BandwidthRate=7 BandwidthBurst=7 SchedulerEchoCellMustAccumulate=32\n" := by
    decide +kernel
  rw [← htext]
  exact hiff.mpr (.inr (.inr ⟨trivial, 78, rfl, by rw [htext]; decide +kernel⟩))

/-- The client can be read from a file. Its `AUTHENTICATE` loses the newline although `send` takes
all of the buffer; and a `send` that takes one byte of a command counts as well. Both calls return
1 and go to the state that waits for the reply. -/
theorem command_cut :
    tcClientFileRead (bytes "m host 9051 " ++ List.replicate 64 0x61 ++ bytes "\n") =
      .ok [longPassword] ∧
    (∃ msg, tcAuthSocket (some 79) { longPassword with fd := 3, state := .connected } =
        .ok (true, msg, { longPassword with fd := 3, state := .authing }) ∧ msg.length = 79 ∧
      ¬ Honest (Command.authSocket.whole longPassword) (some 79)
        { longPassword with fd := 3, state := .connected }
        (true, msg, { longPassword with fd := 3, state := .authing })) ∧
    ∃ msg, tcStartMeasurement 30 (some 1) { longPassword with fd := 3, state := .bwSet } =
        .ok (true, msg, { longPassword with fd := 3, state := .measuring }) ∧
      wentOut (some 1) msg = bytes "T" ∧
      ¬ Honest ((Command.startMeasurement 30).whole longPassword) (some 1)
        { longPassword with fd := 3, state := .bwSet }
        (true, msg, { longPassword with fd := 3, state := .measuring }) := by
  have hauth : wentOut (some 79) (bytes "AUTHENTICATE \"" ++ List.replicate 64 0x61
      ++ bytes "\"") ≠ Command.authSocket.whole longPassword := by
    decide +kernel
  have hstart : wentOut (some 1) (bytes "TESTSPEED 30\n") ≠
      (Command.startMeasurement 30).whole longPassword := by
    decide +kernel
  exact ⟨by decide +kernel, ⟨bytes "AUTHENTICATE \"" ++ List.replicate 64 0x61 ++ bytes "\"",
    by decide +kernel, by decide +kernel, hauth⟩, bytes "TESTSPEED 30\n", by decide +kernel,
    by decide +kernel, hstart⟩

end Flashflow
