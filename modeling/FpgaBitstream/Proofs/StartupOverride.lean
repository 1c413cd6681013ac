import FpgaBitstream.Proofs.Crc
import FpgaBitstream.Proofs.Geometry
import FpgaBitstream.Proofs.RoundTrip
import FpgaBitstream.Proofs.StartupOptions
import FpgaBitstream.Settings

/-!
# Startup options of a package

In the families with wide words one packet of the boot sequence writes the startup options, and no
other packet of a package does (`Package.oneWrite_boot`, `Package.untouched_frameData`,
`Package.untouched_tail`): the words of a payload are data of a packet, whatever they would be as
headers.  Options that are put into a package therefore take the place of that one value, and they
are read back from its bytes (`startupOptions_takenOver`).
-/

namespace FpgaBitstream

variable {f : Family} {register : Register f}

/-! ## One write among others -/

namespace Packet

/-- A packet that writes to a register. -/
def WritesTo (p : Packet f) (register : Register f) : Prop :=
  p.opcode = .write ∧ p.register = register

instance (p : Packet f) (register : Register f) : Decidable (p.WritesTo register) :=
  inferInstanceAs (Decidable (_ ∧ _))

theorem writesTo_write (register : Register f) (data : List Word) :
    (write register data).WritesTo register := ⟨rfl, rfl⟩

/-- Packets of which none writes to the register. -/
def Untouched (register : Register f) (packets : List (Packet f)) : Prop :=
  ∀ p ∈ packets, ¬ p.WritesTo register

theorem untouched_iff_filter {packets : List (Packet f)} :
    Untouched register packets ↔ packets.filter (·.WritesTo register) = [] := by
  simp only [Untouched, List.filter_eq_nil_iff, decide_eq_true_eq]

theorem Untouched.append {front rest : List (Packet f)} (hfront : Untouched register front)
    (hrest : Untouched register rest) : Untouched register (front ++ rest) :=
  List.forall_mem_append.2 ⟨hfront, hrest⟩

/-- Where nothing writes to the register, there is nothing to replace. -/
theorem map_untouched {packets : List (Packet f)} (h : Untouched register packets) (q : Packet f) :
    (packets.map fun p => if p.WritesTo register then q else p) = packets := by
  have hsame : (packets.map fun p => if p.WritesTo register then q else p) = packets.map id :=
    List.map_congr_left fun p hp => if_neg (h p hp)
  rw [hsame, List.map_id]

/-- A packet that writes to the register, between packets that do not. -/
structure OneWrite (register : Register f) (before : List (Packet f)) (p : Packet f)
    (after : List (Packet f)) : Prop where
  writes : p.WritesTo register
  before : Untouched register before
  after : Untouched register after

section OneWrite
variable {p q : Packet f} {before after rest : List (Packet f)}

theorem OneWrite.filter_eq (h : OneWrite register before p after) :
    (before ++ p :: after).filter (·.WritesTo register) = [p] := by
  rw [List.filter_append, untouched_iff_filter.1 h.before, List.nil_append, List.filter_cons,
    if_pos (decide_eq_true h.writes), untouched_iff_filter.1 h.after]

theorem exists_oneWrite {packets : List (Packet f)}
    (h : packets.filter (·.WritesTo register) = [p]) :
    ∃ before after, packets = before ++ p :: after ∧ OneWrite register before p after := by
  obtain ⟨before, after, hpackets, hbefore, hp, hafter⟩ := List.filter_eq_cons_iff.1 h
  refine ⟨before, after, hpackets, of_decide_eq_true hp, ?_, untouched_iff_filter.2 hafter⟩
  exact fun q hq hwrites => hbefore q hq (decide_eq_true hwrites)

theorem OneWrite.append (h : OneWrite register before p after) (hrest : Untouched register rest) :
    OneWrite register before p (after ++ rest) :=
  ⟨h.writes, h.before, h.after.append hrest⟩

theorem OneWrite.replace (h : OneWrite register before p after) (hq : q.WritesTo register) :
    OneWrite register before q after :=
  ⟨hq, h.before, h.after⟩

end OneWrite
end Packet

namespace Package

open Packet

/-! ## The writes of a package -/

theorem untouched_nops (register : Register f) (count : Nat) :
    Untouched register (nops f count) := by
  intro p hp hwrites
  rw [List.eq_of_mem_replicate hp] at hwrites
  cases hwrites.1

section Writes
variable (hregister : Register.startupOptions? f = some register)
include hregister

/-- The boot sequence writes startup options once. -/
theorem oneWrite_boot (idcode : Word) :
    ∃ before p after, boot f idcode = before ++ p :: after ∧
      OneWrite register before p after := by
  have hfilter : (boot f idcode).filter (·.WritesTo register) =
      [write register [({} : StartupOptions).toRaw]] := by
    cases f
    case spartan6 => cases hregister
    all_goals
      obtain rfl := Option.some.inj hregister
      rfl
  obtain ⟨before, after, hboot, hone⟩ := exists_oneWrite hfilter
  exact ⟨before, _, after, hboot, hone⟩

/-- The words of a segment are data, whatever they are. -/
theorem untouched_frameData (segment : Segment f) : Untouched register (frameData segment) := by
  refine untouched_iff_filter.2 ?_
  cases f
  case spartan6 => cases hregister
  all_goals
    obtain rfl := Option.some.inj hregister
    rfl

theorem untouched_segments (segments : List (Segment f)) :
    Untouched register (segments.flatMap frameData) := by
  intro p hp
  obtain ⟨segment, -, hsegment⟩ := List.mem_flatMap.1 hp
  exact untouched_frameData hregister segment p hsegment

theorem untouched_tail : Untouched register (tail f) := by
  cases f
  case spartan6 => cases hregister
  all_goals
    obtain rfl := Option.some.inj hregister
    simp only [tail, wideTail, Untouched, List.forall_mem_append]
    exact ⟨⟨⟨by decide, untouched_nops _ _⟩, by decide⟩, untouched_nops _ _⟩

/-- Other options are put into the one write. -/
theorem overrideStartup_eq {before after : List (Packet f)} {p : Packet f}
    (h : OneWrite register before p after) (o : StartupOptions) :
    overrideStartup o (before ++ p :: after) = before ++ write register [o.toRaw] :: after := by
  have hmap (packets : List (Packet f)) : overrideStartup o packets =
      packets.map fun q => if q.WritesTo register then write register [o.toRaw] else q := by
    rw [overrideStartup, hregister]
    rfl
  rw [hmap, List.map_append, List.map_cons, if_pos h.writes, map_untouched h.before,
    map_untouched h.after]

/-- The packets of a package in front of its CRC check: one write of startup options, which are
those of the boot sequence or those put in. -/
theorem exists_oneWrite_body (part : Part f) (segments : List (Segment f)) :
    ∃ before p after, OneWrite register before p after ∧
      start part {} ++ segments.flatMap frameData ++ tail f = before ++ p :: after ∧
      ∀ o, start part { cor0 := some o } ++ segments.flatMap frameData ++ tail f =
        before ++ write register [o.toRaw] :: after := by
  obtain ⟨before, p, after, hboot, hone⟩ := oneWrite_boot hregister part.idcode
  have hrest : Untouched register (segments.flatMap frameData ++ tail f) :=
    (untouched_segments hregister segments).append (untouched_tail hregister)
  refine ⟨before, p, after ++ (segments.flatMap frameData ++ tail f), hone.append hrest, ?_,
    fun o => ?_⟩
  · have hstart : start part {} = before ++ p :: after := hboot
    rw [hstart]
    simp only [List.append_assoc, List.cons_append]
  · have hstart : start part { cor0 := some o } = before ++ write register [o.toRaw] :: after := by
      rw [← overrideStartup_eq hregister hone, ← hboot]
      rfl
    rw [hstart]
    simp only [List.append_assoc, List.cons_append]

/-- The CRC check is no write of startup options. -/
theorem Checked.filter_eq {packets checked : List (Packet f)} (h : Checked packets checked) :
    checked.filter (·.WritesTo register) = packets.filter (·.WritesTo register) := by
  cases h with
  | unchanged => rfl
  | inserted value hpackets _ _ =>
    have hne : Register.crc f ≠ register := by
      cases f
      case spartan6 => cases hregister
      all_goals
        obtain rfl := Option.some.inj hregister
        decide
    rw [hpackets, List.filter_append, List.filter_append, List.filter_cons, if_neg]
    exact fun hwrites => hne (of_decide_eq_true hwrites).2

/-- **The options that are put in are written once**, with or without a CRC check. -/
theorem filter_partialPackage (part : Part f) (segments : List (Segment f)) (o : StartupOptions)
    (crcCheck : Bool) :
    (partialPackage part segments { cor0 := some o, crcCheck }).filter (·.WritesTo register) =
      [write register [o.toRaw]] := by
  obtain ⟨before, p, after, hone, -, hoverride⟩ := exists_oneWrite_body hregister part segments
  have hchecked := checked_partialPackage part segments { cor0 := some o, crcCheck }
  rw [hchecked.filter_eq hregister]
  have hbody : start part { cor0 := some o, crcCheck } ++ segments.flatMap frameData ++ tail f =
      before ++ write register [o.toRaw] :: after := hoverride o
  rw [hbody]
  exact (hone.replace (writesTo_write register [o.toRaw])).filter_eq

end Writes

/-! ## Delivery -/

/-- Packages that take startup options over. -/
structure TakesOver (register : Register f) (o : StartupOptions)
    (package : PackageOptions → List (Packet f)) : Prop where
  /-- Read back from the bytes, one packet writes to the register, and its value stands for the
  options. -/
  readBack (crcCheck : Bool) : ∃ packets value,
    Tool.packets (encodeBytes (package { cor0 := some o, crcCheck })) = .ok packets ∧
      packets.filter (·.WritesTo register) = [write register [value]] ∧
      StartupOptions.ofRaw value = o
  /-- Without a CRC check, all other packets are those of the package without the options. -/
  others : ∃ before p value after, OneWrite register before p after ∧
    package {} = before ++ p :: after ∧
    package { cor0 := some o } = before ++ write register [value] :: after

theorem takesOver_partialPackage (hregister : Register.startupOptions? f = some register)
    {o : StartupOptions} (ho : o.cclkFrequency ≤ 0x3F) (part : Part f)
    {segments : List (Segment f)}
    (hpayload : ∀ segment ∈ segments, segment.payload.length < 2 ^ 27) :
    TakesOver register o (partialPackage part segments) where
  readBack crcCheck := by
    have hwide : f.hasWideWords = true := by
      cases f
      case spartan6 => cases hregister
      all_goals rfl
    have hsend : Sendable none (partialPackage part segments { cor0 := some o, crcCheck }) := by
      apply sendable_partialPackage
      · exact fun _ _ word _ => Family.holds_of_wide hwide word
      · exact fun segment hmem => Nat.lt_of_lt_of_le (hpayload segment hmem) f.two_pow_le_longLimit
    refine ⟨_, o.toRaw, Tool.packets_eq_ok.2 (packets_encodeBytes hsend), ?_, ?_⟩
    · exact filter_partialPackage hregister part segments o crcCheck
    · exact StartupOptions.ofRaw_toRaw ho
  others := by
    obtain ⟨before, p, after, hone, hown, hoverride⟩ :=
      exists_oneWrite_body hregister part segments
    refine ⟨before, p, o.toRaw, after, hone, ?_, ?_⟩
    · rw [partialPackage_eq_withCrcCheck]
      exact hown
    · rw [partialPackage_eq_withCrcCheck]
      exact hoverride o

end Package

/-! ## Settings -/

namespace Settings

/-- **The checks let settings through as they are**, if none of them fails. -/
theorem validate_eq_ok_iff {s t : Settings} :
    s.validate = .ok t ↔
      s.device.geometry ≠ some "" ∧ ¬ (s.output.header ∧ s.output.designName = "") ∧
        (∀ o, s.options.cor0 = some o →
          o.cclkFrequency ≤ maxClockFrequency ∧ s.device.family ≠ some .spartan6) ∧
        s = t := by
  have hpure : (pure s : Except SettingsError Settings) = .ok t ↔ s = t :=
    ⟨Except.ok.inj, congrArg _⟩
  cases hoptions : s.options.cor0 with
  | none =>
    simp only [validate, check_eq_ok, hoptions, hpure, ne_eq, reduceCtorEq, false_imp_iff,
      implies_true, true_and]
  | some startup =>
    simp only [validate, check_eq_ok, hoptions, hpure, ne_eq, Nat.not_lt, Option.some.injEq,
      forall_eq', and_assoc]

/-- The clock frequency fits its field in all settings that are read. -/
theorem cclkFrequency_le_of_ofToml {text : List Char} {s : Settings} (h : ofToml text = .ok s)
    {o : StartupOptions} (ho : s.options.cor0 = some o) : o.cclkFrequency ≤ maxClockFrequency := by
  unfold ofToml at h
  split at h
  · obtain ⟨-, -, hstartup, rfl⟩ := validate_eq_ok_iff.1 h
    exact (hstartup o ho).1
  · cases h

end Settings

/-- **Startup options reach the bitstream**, in every family with wide words and on every part.  If
the clock frequency fits its field, as it does in settings that are accepted, the one write to the
register in the bytes of a package stands for the options, whatever the payloads hold, and nothing
else depends on them.  A register value is kept but for its reserved bits and the reserved code of
the startup clock. -/
theorem startupOptions_takenOver (hwide : f.hasWideWords = true) (part : Part f) :
    (∃ register, Register.startupOptions? f = some register ∧
      ∀ o : StartupOptions, o.cclkFrequency ≤ 0x3F →
        (∀ segments : List (Segment f), (∀ segment ∈ segments, segment.payload.length < 2 ^ 27) →
          Package.TakesOver register o (partialPackage part segments)) ∧
        ∀ payload : List Word, payload.length < 2 ^ 27 →
          Package.TakesOver register o (fullPackage part payload)) ∧
    (∀ (text : List Char) (s : Settings) (o : StartupOptions), Settings.ofToml text = .ok s →
      s.options.cor0 = some o → o.cclkFrequency ≤ 0x3F) ∧
    ∀ raw : Word, (StartupOptions.ofRaw raw).toRaw =
      StartupOptions.withoutReservedClock raw &&& StartupOptions.definedBits := by
  obtain ⟨register, hregister⟩ : ∃ register, Register.startupOptions? f = some register := by
    cases f
    case spartan6 => cases hwide
    all_goals exact ⟨_, rfl⟩
  refine ⟨⟨register, hregister, fun o ho => ⟨fun segments hpayload => ?_, fun payload hlong => ?_⟩⟩,
    fun text s o hread hoptions => ?_, StartupOptions.toRaw_ofRaw⟩
  · exact Package.takesOver_partialPackage hregister ho part hpayload
  · exact Package.takesOver_partialPackage hregister ho part (List.forall_mem_singleton.2 hlong)
  · exact Settings.cclkFrequency_le_of_ofToml hread hoptions

/-- A payload that begins with the header of a write of startup options. -/
def headerPayload : List Word := 0x30012001 :: List.replicate 100 0

/-- Options with the largest clock frequency. -/
def fastClock : StartupOptions where
  driveDone := true
  cclkFrequency := 0x3F
  startupClock := .jtagClk
  gweCycle := .done

theorem startupOptions_takenOver_headerPayload :
    (∃ (packets : List (Packet .series7)) (value : Word),
      Tool.packets (Packet.encodeBytes (fullPackage Package.oneFrame headerPayload
          { cor0 := some fastClock, crcCheck := true })) = .ok packets ∧
        packets.filter (·.WritesTo ⟨0x09⟩) = [.write ⟨0x09⟩ [value]] ∧
        StartupOptions.ofRaw value = fastClock) ∧
      (StartupOptions.ofRaw 0xFFFFFFFF).toRaw = 0x0BFE7FFF := by
  obtain ⟨⟨register, hregister, htaken⟩, -, hraw⟩ :=
    startupOptions_takenOver (f := .series7) rfl Package.oneFrame
  obtain rfl := Option.some.inj hregister
  obtain ⟨-, hfull⟩ := htaken fastClock (by decide)
  exact ⟨(hfull headerPayload (by decide)).readBack true, (hraw _).trans (by decide)⟩

end FpgaBitstream
