import FpgaBitstream.Package
import FpgaBitstream.Proofs.Packetizing
import Mathlib.Data.List.TakeDrop

/-!
# Packages write their segments

The fixed packets around the frame data of a package can be sent and leave the frames alone
(`Framing`), whatever startup options are put in; so does the CRC check.  Each segment starts at
its own address, whatever the segments before it left behind (`run_frameData`).  A package of the
segments of a set of frames therefore writes exactly that set (`run_segments`), and the package of
the whole payload of a part writes a frame at each address of its walk (`run_assemblePayload`).
-/

namespace FpgaBitstream

variable {f : Family}

/-! ## Fixed packets -/

instance (p : Packet f) : Decidable p.Fits :=
  decidable_of_iff
    (p.register.raw.toNat < 2 ^ f.headerLayout.register.width ∧ (∀ word ∈ p.data, f.Holds word) ∧
      (p.header = .type0 → p.opcode = .nop ∧ p.register = .crc f ∧ p.data = []) ∧
      (p.header = .type1 → p.data.length ≤ f.maxType1Words) ∧
      (p.header = .type2 → p.data.length < f.longLimit))
    ⟨fun ⟨h₁, h₂, h₃, h₄, h₅⟩ => ⟨h₁, h₂, h₃, h₄, h₅⟩, fun ⟨h₁, h₂, h₃, h₄, h₅⟩ =>
      ⟨h₁, h₂, h₃, h₄, h₅⟩⟩

/-- A short packet that can be sent and neither carries frame data nor names a device. -/
structure Packet.Plain (p : Packet f) : Prop where
  fits : p.Fits
  header : p.header ≠ .type2
  short : p.data.length ≤ 2
  role : p.register.role ∉ [.frameDataInput, .multiFrameWrite, .idcode]

instance (p : Packet f) : Decidable p.Plain :=
  decidable_of_iff (p.Fits ∧ p.header ≠ .type2 ∧ p.data.length ≤ 2 ∧
      p.register.role ∉ [.frameDataInput, .multiFrameWrite, .idcode])
    ⟨fun ⟨h₁, h₂, h₃, h₄⟩ => ⟨h₁, h₂, h₃, h₄⟩, fun ⟨h₁, h₂, h₃, h₄⟩ => ⟨h₁, h₂, h₃, h₄⟩⟩

/-- A short packet that can be sent and leaves the frames of the part alone. -/
structure Packet.Framing (part : Part f) (p : Packet f) : Prop where
  fits : p.Fits
  header : p.header ≠ .type2
  short : p.data.length ≤ 2
  quiet : Replay.Quiet part p

theorem Packet.sendable_framing {part : Part f} {packets : List (Packet f)}
    (h : ∀ p ∈ packets, p.Framing part) (previous : Option (Packet f)) :
    Sendable previous packets :=
  sendable_of_ne (fun p hmem => ⟨(h p hmem).fits, (h p hmem).header⟩) previous

theorem Packet.Plain.framing {p : Packet f} (h : p.Plain) (part : Part f) : p.Framing part := by
  have hrole := h.role
  simp only [List.mem_cons, List.not_mem_nil, or_false, not_or] at hrole
  exact ⟨h.fits, h.header, h.short,
    fun _ => hrole.1, fun _ => hrole.2.1, fun _ hidcode => absurd hidcode hrole.2.2⟩

namespace Package

open Packet

@[simp] theorem length_nops (f : Family) (count : Nat) : (nops f count).length = count :=
  List.length_replicate

theorem plain_nops (f : Family) (count : Nat) : ∀ p ∈ nops f count, p.Plain := by
  intro p hmem
  rw [List.eq_of_mem_replicate hmem]
  refine ⟨fits_nop f, show HeaderType.type1 ≠ .type2 by decide, Nat.zero_le _, ?_⟩
  cases f <;> decide

/-- The two halves of an IDCODE are those of the device. -/
theorem idcode?_splitHalves (idcode : Word) :
    Replay.idcode? .spartan6 (splitHalves idcode) = some idcode :=
  congrArg some (or_halves idcode)

/-- The IDCODE write of a package names the device. -/
theorem framing_idcode {part : Part f} {data : List Word} (hdata : ∀ word ∈ data, f.Holds word)
    (hshort : data.length ≤ 2) (hidcode : Replay.idcode? f data = some part.idcode) :
    (write (.idcode f) data).Framing part := by
  have hregister : (Register.idcode f).raw.toNat < 2 ^ f.headerLayout.register.width := by
    cases f <;> decide
  have hrole : (Register.idcode f).role = .idcode := by
    cases f <;> rfl
  refine ⟨fits_write hregister hdata (Nat.le_trans hshort f.two_le_maxType1Words),
    header_write_ne _ _, hshort, ⟨fun _ => ?_, fun _ => ?_, fun _ _ idcode h => ?_⟩⟩
  · show (Register.idcode f).role ≠ .frameDataInput
    rw [hrole]
    decide
  · show (Register.idcode f).role ≠ .multiFrameWrite
    rw [hrole]
    decide
  · exact Option.some.inj (h.symm.trans hidcode)

theorem framing_boot (part : Part f) : ∀ p ∈ boot f part.idcode, p.Framing part := by
  have hplain {packets : List (Packet f)} (h : ∀ p ∈ packets, p.Plain) :
      ∀ p ∈ packets, p.Framing part := fun p hmem => (h p hmem).framing part
  cases f
  case spartan6 =>
    have hidcode : (write (.idcode .spartan6) (splitHalves part.idcode)).Framing part := by
      refine framing_idcode (fun word hmem => ?_) (Nat.le_refl 2) (idcode?_splitHalves part.idcode)
      obtain rfl | rfl : word = part.idcode >>> 16 ∨ word = part.idcode &&& 0xFFFF := by
        simpa [splitHalves] using hmem
      · exact Family.holds_high _
      · exact Family.holds_low _
    simp only [boot, narrowBoot, List.forall_mem_append]
    refine ⟨⟨?_, hplain (plain_nops _ _)⟩, hplain (by decide +kernel)⟩
    iterate 5 refine List.forall_mem_cons.2 ⟨Plain.framing (by decide +kernel) part, ?_⟩
    exact List.forall_mem_cons.2 ⟨hidcode, hplain (by decide +kernel)⟩
  all_goals
    have hidcode : (write (.idcode _) [part.idcode]).Framing part :=
      framing_idcode (fun word _ => Family.holds_of_wide rfl word) (Nat.le_succ 1) rfl
    simp only [boot, wideBoot, List.forall_mem_append]
    refine ⟨⟨⟨hplain (by decide +kernel), hplain (by decide +kernel)⟩, ?_⟩,
      hplain (plain_nops _ _)⟩
    iterate 2 refine List.forall_mem_cons.2 ⟨Plain.framing (by decide +kernel) part, ?_⟩
    exact List.forall_mem_cons.2 ⟨hidcode, hplain (by decide +kernel)⟩

theorem plain_tail (f : Family) : ∀ p ∈ tail f, p.Plain := by
  cases f
  case spartan6 =>
    simp only [tail, narrowTail, List.forall_mem_append]
    exact ⟨⟨⟨by decide +kernel, plain_nops _ _⟩, by decide +kernel⟩, plain_nops _ _⟩
  all_goals
    simp only [tail, wideTail, List.forall_mem_append]
    exact ⟨⟨⟨by decide +kernel, plain_nops _ _⟩, by decide +kernel⟩, plain_nops _ _⟩

theorem framing_tail (part : Part f) : ∀ p ∈ tail f, p.Framing part :=
  fun p hmem => (plain_tail f p hmem).framing part

/-- Other startup options make no difference to what a packet may do. -/
theorem framing_overrideStartup {part : Part f} {packets : List (Packet f)}
    (options : StartupOptions) (h : ∀ p ∈ packets, p.Framing part) :
    ∀ p ∈ overrideStartup options packets, p.Framing part := by
  unfold overrideStartup
  cases hregister : Register.startupOptions? f with
  | none => exact h
  | some register =>
    have hplain : (write register [options.toRaw]).Plain := by
      cases f
      case spartan6 => cases hregister
      all_goals
        obtain rfl := Option.some.inj hregister
        exact ⟨fits_write (by decide) (fun word _ => Family.holds_of_wide rfl word)
          (Nat.le_of_succ_le (Family.two_le_maxType1Words _)), header_write_ne _ _,
          Nat.le_succ 1, show Register.role ⟨0x09⟩ ∉ _ by decide⟩
    intro p hmem
    obtain ⟨q, hq, rfl⟩ := List.mem_map.1 hmem
    split
    · exact hplain.framing part
    · exact h q hq

end Package

/-! ## The CRC check -/

namespace Packet

theorem splitAtLast?_eq {α : Type} {test : α → Bool} {elements before rest : List α}
    (h : splitAtLast? test elements = some (before, rest)) :
    ∃ found after, rest = found :: after ∧ test found ∧ elements = before ++ found :: after := by
  unfold splitAtLast? at h
  rw [List.span_eq_takeWhile_dropWhile] at h
  cases hdrop : elements.reverse.dropWhile fun x => !test x with
  | nil =>
    rw [hdrop] at h
    cases h
  | cons found before' =>
    rw [hdrop] at h
    obtain ⟨rfl, rfl⟩ := Prod.mk.inj (Option.some.inj h)
    refine ⟨found, _, rfl, ?_, ?_⟩
    · have hhead := List.head?_dropWhile_not (fun x => !test x) elements.reverse
      rw [hdrop] at hhead
      simpa using hhead
    · have hwhole := List.takeWhile_append_dropWhile (p := fun x => !test x)
        (l := elements.reverse)
      rw [hdrop] at hwhole
      have hback := congrArg List.reverse hwhole
      simpa using hback.symm

/-- The packets that are sent when a check is asked for: those with the check, or the same packets
if there is no place for one. -/
def withCrcCheck (packets : List (Packet f)) : List (Packet f) :=
  (insertCrcCheck? packets).elim packets (·.2)

theorem withCrcCheck_of_eq_some {packets checked : List (Packet f)} {value : Word}
    (h : insertCrcCheck? packets = some (value, checked)) : withCrcCheck packets = checked := by
  rw [withCrcCheck, h]
  rfl

theorem withCrcCheck_of_eq_none {packets : List (Packet f)} (h : insertCrcCheck? packets = none) :
    withCrcCheck packets = packets := by
  rw [withCrcCheck, h]
  rfl

/-- **The check stands in front of a packet** that is not of type 2, if no long packet writes a
command. -/
theorem insertCrcCheck?_eq {packets checked : List (Packet f)} {value : Word}
    (hlong : ∀ p ∈ packets, p.header = .type2 → p.register ≠ .command f)
    (h : insertCrcCheck? packets = some (value, checked)) :
    ∃ before q after, packets = before ++ q :: after ∧
      checked = before ++ write (.crc f) [value] :: q :: after ∧ q.header ≠ .type2 ∧
      f.hasWideWords = true := by
  unfold insertCrcCheck? at h
  split at h
  case isFalse => cases h
  case isTrue hwide =>
    obtain ⟨⟨before, rest⟩, hsplit, hchecked⟩ := Option.map_eq_some_iff.1 h
    obtain ⟨q, after, rfl, hdesync, rfl⟩ := splitAtLast?_eq hsplit
    obtain ⟨rfl, rfl⟩ : Crc.ofPackets before = value ∧
        before ++ write (.crc f) [Crc.ofPackets before] :: q :: after = checked :=
      Prod.mk.inj hchecked
    refine ⟨before, q, after, rfl, rfl, fun htype => ?_, hwide⟩
    have hregister : q.register = .command f := by
      simp only [isDesync, Bool.and_eq_true, decide_eq_true_eq] at hdesync
      exact hdesync.1.2
    exact hlong q (by simp) htype hregister

end Packet

/-! ## Segments -/

namespace Package

open Packet Replay

/-- The packets of a segment can be sent. -/
theorem sendable_frameData {segment : Segment f} (hwords : ∀ word ∈ segment.payload, f.Holds word)
    (hlong : segment.payload.length < f.longLimit) (previous : Option (Packet f)) :
    Sendable previous (frameData segment) := by
  obtain ⟨haddress, htype⟩ := fits_frameAddress segment.start
  have hcommand : (command f .writeConfig).Fits := fits_command (by cases f <;> decide)
  have hfollows (previous : Option (Packet f)) : (command f .writeConfig).Follows previous :=
    follows_of_ne (header_write_ne _ _) previous
  have hnops (count : Nat) (previous : Option (Packet f)) : Sendable previous (nops f count) :=
    sendable_of_ne (fun p hmem => ⟨(plain_nops f count p hmem).fits,
      (plain_nops f count p hmem).header⟩) previous
  cases f
  case spartan6 =>
    refine .cons haddress (follows_of_ne htype _) (.cons hcommand (hfollows _) ?_)
    exact .cons (fits_longWrite (register_frameDataInput_lt _) hwords hlong)
      (fun hwide => nomatch hwide) (hnops 24 _)
  all_goals
    refine .cons haddress (follows_of_ne htype _) (.cons hcommand (hfollows _) ?_)
    exact (hnops 1 _).append fun previous => sendable_emptyThenLong hwords hlong previous

/-- A segment is one long write with a few short packets around it. -/
theorem frameData_eq (segment : Segment f) :
    ∃ front back, frameData segment =
        front ++ longWrite (.frameDataInput f) segment.payload :: back ∧
      (∀ p ∈ front ++ back, p.header ≠ .type2 ∧ p.data.length ≤ 2) ∧
      front.length + back.length ≤ 26 := by
  have haddress : (frameAddress segment.start).data.length ≤ 2 := by
    cases f <;> simp [frameAddress, Packet.write]
  have hstart : ∀ p ∈ [frameAddress segment.start, command f .writeConfig],
      p.header ≠ .type2 ∧ p.data.length ≤ 2 := by
    intro p hmem
    obtain rfl | rfl : p = frameAddress segment.start ∨ p = command f .writeConfig := by
      simpa using hmem
    · exact ⟨(fits_frameAddress segment.start).2, haddress⟩
    · exact ⟨header_write_ne _ _, Nat.le_succ 1⟩
  have hnops (count : Nat) : ∀ p ∈ nops f count, p.header ≠ .type2 ∧ p.data.length ≤ 2 :=
    fun p hmem => ⟨(plain_nops f count p hmem).header, (plain_nops f count p hmem).short⟩
  cases f
  case spartan6 =>
    exact ⟨_, nops _ 24, rfl, List.forall_mem_append.2 ⟨hstart, hnops 24⟩, Nat.le_refl 26⟩
  all_goals
    refine ⟨[frameAddress segment.start, command _ .writeConfig] ++
      (nops _ 1 ++ [write (.frameDataInput _) []]), [], rfl, ?_, ?_⟩
    · rw [List.append_nil]
      refine List.forall_mem_append.2 ⟨hstart, List.forall_mem_append.2 ⟨hnops 1, ?_⟩⟩
      exact List.forall_mem_singleton.2 ⟨header_write_ne _ _, Nat.zero_le 2⟩
    · show 4 ≤ 26
      decide

/-- Only the long write of frame data has a type-2 header. -/
theorem register_of_mem_frameData {segment : Segment f} {p : Packet f}
    (hmem : p ∈ frameData segment) (htype : p.header = .type2) :
    p.register = .frameDataInput f := by
  obtain ⟨front, back, heq, hshort, -⟩ := frameData_eq segment
  rw [heq, List.mem_append, List.mem_cons] at hmem
  rcases hmem with hfront | rfl | hback
  · exact absurd htype (hshort p (List.mem_append_left _ hfront)).1
  · rfl
  · exact absurd htype (hshort p (List.mem_append_right _ hback)).1

/-- **A segment begins at its own address**, whatever was written before. -/
theorem run_frameData (part : Part f) (segment : Segment f) (s : State f) :
    ∃ s₁ : State f, s₁.cursor = segment.start ∧ s₁.frames = s.frames ∧
      run part s (frameData segment) = some (s₁.fill part segment.payload) := by
  have hstart : run part s [.frameAddress segment.start, command f .writeConfig] =
      some (s.startAt segment.start) := run_startAt segment.start s
  refine ⟨(s.startAt segment.start).beginRun, cursor_beginRun_startAt s _,
    by rw [frames_beginRun, frames_startAt], ?_⟩
  cases f
  case spartan6 =>
    show run part s ([.frameAddress segment.start, command _ .writeConfig] ++
      (longWrite (.frameDataInput _) segment.payload :: nops _ 24)) = _
    rw [run_append, hstart]
    show run part (s.startAt segment.start) (_ :: _) = _
    rw [run_cons, step_frameData rfl rfl]
    exact run_replicate (show Opcode.nop ≠ .write by decide) _ _
  all_goals
    show run part s ([.frameAddress segment.start, command _ .writeConfig] ++ (nop _ ::
      [write (.frameDataInput _) [], longWrite (.frameDataInput _) segment.payload])) = _
    rw [run_append, hstart]
    show run part (s.startAt segment.start) (_ :: _) = _
    rw [run_cons, step_of_ne (show Opcode.nop ≠ .write by decide)]
    exact run_emptyThenLong segment.payload _

/-! ## Whole packages -/

/-- A write for the CRC has no part in the replay, wherever it stands. -/
theorem run_writeCrc (part : Part f) (s : State f) (front back : List (Packet f))
    (data : List Word) :
    run part s (front ++ write (.crc f) data :: back) = run part s (front ++ back) := by
  have hstep (s : State f) : step part s (write (.crc f) data) = some s := by
    cases f <;> rfl
  rw [run_append, run_append]
  refine congrArg _ (funext fun s' => ?_)
  rw [run_cons, hstep]
  rfl

/-- A run of packets as it stands, or with a CRC check in front of a packet not of type 2. -/
inductive Checked (packets : List (Packet f)) : List (Packet f) → Prop where
  | unchanged : Checked packets packets
  | inserted {before after : List (Packet f)} {q : Packet f} (value : Word)
      (hpackets : packets = before ++ q :: after) (hq : q.header ≠ .type2)
      (hwide : f.hasWideWords = true) :
      Checked packets (before ++ write (.crc f) [value] :: q :: after)

section Checked
variable {packets checked : List (Packet f)}

theorem Checked.sendable (h : Checked packets checked) (hsend : Sendable none packets) :
    Sendable none checked := by
  cases h with
  | unchanged => exact hsend
  | inserted value hpackets hq hwide =>
    have hcrc : (write (.crc f) [value]).Fits :=
      fits_write (Nat.two_pow_pos _) (fun word _ => Family.holds_of_wide hwide word)
        (Nat.le_of_succ_le f.two_le_maxType1Words)
    rw [hpackets] at hsend
    exact hsend.insert hq hcrc (header_write_ne _ _)

/-- The check has no part in the replay. -/
theorem Checked.run_eq (h : Checked packets checked) (part : Part f) (s : State f) :
    run part s checked = run part s packets := by
  cases h with
  | unchanged => rfl
  | inserted value hpackets _ _ =>
    rw [hpackets]
    exact run_writeCrc part s _ _ _

theorem checked_withCrcCheck
    (hlong : ∀ p ∈ packets, p.header = .type2 → p.register ≠ .command f) :
    Checked packets (withCrcCheck packets) := by
  cases h : insertCrcCheck? packets with
  | none =>
    rw [withCrcCheck_of_eq_none h]
    exact .unchanged
  | some result =>
    obtain ⟨value, checked⟩ := result
    rw [withCrcCheck_of_eq_some h]
    obtain ⟨before, q, after, hpackets, rfl, hq, hwide⟩ := insertCrcCheck?_eq hlong h
    exact .inserted value hpackets hq hwide

end Checked

variable {part : Part f} {segments : List (Segment f)}

/-- The packets that a package begins with, under its options. -/
def start (part : Part f) (options : PackageOptions) : List (Packet f) :=
  options.cor0.elim (boot f part.idcode) (overrideStartup · (boot f part.idcode))

theorem framing_start (part : Part f) (options : PackageOptions) :
    ∀ p ∈ start part options, p.Framing part := by
  unfold start
  cases options.cor0 with
  | none => exact framing_boot part
  | some startup => exact framing_overrideStartup startup (framing_boot part)

theorem length_start (part : Part f) (options : PackageOptions) :
    (start part options).length = (boot f part.idcode).length := by
  unfold start
  cases options.cor0 with
  | none => rfl
  | some startup =>
    simp only [Option.elim, overrideStartup]
    split <;> simp

/-- A package is its fixed packets around the segments, and the check where there is a place for
it. -/
theorem partialPackage_eq_withCrcCheck (part : Part f) (segments : List (Segment f))
    (options : PackageOptions) :
    partialPackage part segments options =
      if options.crcCheck then
        withCrcCheck (start part options ++ segments.flatMap frameData ++ tail f)
      else start part options ++ segments.flatMap frameData ++ tail f := by
  rw [start, partialPackage]
  cases options.cor0 <;> cases options.crcCheck
  case none.false => rfl
  case some.false => rfl
  all_goals
    simp only [Option.elim_none, Option.elim_some, if_true, withCrcCheck]
    split <;> simp only [*, Option.elim_none, Option.elim_some]

/-- A package is its fixed packets around the segments, perhaps with a CRC check. -/
theorem checked_partialPackage (part : Part f) (segments : List (Segment f))
    (options : PackageOptions) :
    Checked (start part options ++ segments.flatMap frameData ++ tail f)
      (partialPackage part segments options) := by
  obtain ⟨body, hbody⟩ :
      ∃ body, body = start part options ++ segments.flatMap frameData ++ tail f := ⟨_, rfl⟩
  have hlong : ∀ p ∈ body, p.header = .type2 → p.register ≠ .command f := by
    intro p hmem htype
    rw [hbody, List.mem_append, List.mem_append] at hmem
    rcases hmem with (hstart | hdata) | htail
    · exact absurd htype (framing_start part options p hstart).header
    · obtain ⟨segment, -, hsegment⟩ := List.mem_flatMap.1 hdata
      rw [register_of_mem_frameData hsegment htype]
      cases f <;> decide
    · exact absurd htype (plain_tail f p htail).header
  rw [partialPackage_eq_withCrcCheck, ← hbody]
  split
  · exact checked_withCrcCheck hlong
  · exact .unchanged

/-- **A package can be sent** when the payloads of its segments can. -/
theorem sendable_partialPackage (options : PackageOptions)
    (hwords : ∀ segment ∈ segments, ∀ word ∈ segment.payload, f.Holds word)
    (hlong : ∀ segment ∈ segments, segment.payload.length < f.longLimit) :
    Sendable none (partialPackage part segments options) := by
  have hdata : ∀ previous, Sendable previous (segments.flatMap frameData) :=
    sendable_flatMap fun segment hmem => sendable_frameData (hwords segment hmem)
      (hlong segment hmem)
  refine (checked_partialPackage part segments options).sendable ?_
  rw [List.append_assoc]
  exact (sendable_framing (framing_start part options) none).append fun previous =>
    (hdata previous).append (sendable_framing (framing_tail part))

/-- **A package writes what its segments write** into no frames at all. -/
theorem run_partialPackage {frames : Frames f} (options : PackageOptions)
    (h : ∀ s : State f, s.frames = .empty → ∃ s',
      run part s (segments.flatMap frameData) = some s' ∧ s'.frames = frames) :
    ∃ s', run part .initial (partialPackage part segments options) = some s' ∧
      s'.frames = frames := by
  obtain ⟨s₁, hrun₁, h₁⟩ :=
    run_quiet (fun p hmem => (framing_start part options p hmem).quiet) .initial
  obtain ⟨s₂, hrun₂, h₂⟩ := h s₁ h₁
  obtain ⟨s₃, hrun₃, h₃⟩ :=
    run_quiet (fun p hmem => (framing_tail part p hmem).quiet) s₂
  refine ⟨s₃, ?_, h₃.trans h₂⟩
  rw [(checked_partialPackage part segments options).run_eq, List.append_assoc, run_append, hrun₁]
  show run part s₁ _ = _
  rw [run_append, hrun₂]
  exact hrun₃

/-! ## Segments of a set of frames -/

theorem flatMap_filterMap {α β γ : Type} (pick : α → Option β) (expand : β → List γ)
    (elements : List α) :
    (elements.filterMap pick).flatMap expand =
      elements.flatMap fun x => ((pick x).map expand).getD [] := by
  induction elements with
  | nil => rfl
  | cons x rest ih =>
    rw [List.filterMap_cons, List.flatMap_cons, ← ih]
    cases pick x <;> rfl

/-- The words of a segment are words of frames. -/
theorem holds_of_mem_segments {frames : Frames f} (h : frames.Whole) {segment : Segment f}
    (hmem : segment ∈ frames.segments part) : ∀ word ∈ segment.payload, f.Holds word := by
  obtain ⟨run, hrun, hsegment⟩ := List.mem_filterMap.1 hmem
  obtain ⟨first, -, rfl⟩ := Option.map_eq_some_iff.1 hsegment
  intro word hword
  obtain ⟨entry, hentry, hword⟩ := List.mem_flatMap.1 hword
  refine (h entry ?_).holds word hword
  rw [← List.flatten_splitBy (fun x y => Frames.continues part x.1 y.1) frames.toList]
  exact List.mem_flatten.2 ⟨run, hrun, hentry⟩

/-- The package of the segments can be sent if no payload is too long. -/
theorem sendable_segments {frames : Frames f} (h : frames.Whole) (options : PackageOptions)
    (hpayload : ∀ segment ∈ frames.segments part, segment.payload.length < 2 ^ 27) :
    Sendable none (partialPackage part (frames.segments part) options) :=
  sendable_partialPackage options (fun _ hmem => holds_of_mem_segments h hmem)
    fun segment hmem => Nat.lt_of_lt_of_le (hpayload segment hmem) f.two_pow_le_longLimit

/-- **The segments of a set write the set** into no frames at all. -/
theorem run_segments {frames : Frames f} (h : frames.Whole) (part : Part f) {s : State f}
    (hempty : s.frames = .empty) :
    ∃ s', run part s ((frames.segments part).flatMap frameData) = some s' ∧
      s'.frames = frames := by
  have hflatten := List.flatten_splitBy (fun x y => Frames.continues part x.1 y.1) frames.toList
  have hstep (done : List (List (FrameAddress f × List Word)))
      (entries : List (FrameAddress f × List Word)) (s₁ : State f)
      (hmem : entries ∈ frames.toList.splitBy fun x y => Frames.continues part x.1 y.1)
      (h₁ : s₁.frames = s.frames.insertAll done.flatten) :
      ∃ s₂, run part s₁ (((entries.head?.map fun first =>
          (⟨first.1, entries.flatMap (·.2)⟩ : Segment f)).map frameData).getD []) = some s₂ ∧
        s₂.frames = s.frames.insertAll (done ++ [entries]).flatten := by
    have hchain := List.isChain_of_mem_splitBy hmem
    have hlength : ∀ entry ∈ entries, entry.2.length = f.wordsPerFrame := by
      intro entry hentry
      refine (h entry ?_).length
      rw [← hflatten]
      exact List.mem_flatten.2 ⟨entries, hmem, hentry⟩
    cases entries with
    | nil => exact absurd rfl (List.ne_nil_of_mem_splitBy hmem)
    | cons first rest =>
      obtain ⟨s₂, hcursor, hframes, hrun⟩ := run_frameData part
        ⟨first.1, (first :: rest).flatMap (·.2)⟩ s₁
      refine ⟨_, hrun, ?_⟩
      rw [frames_fill_row hchain hlength hcursor, hframes, h₁, List.flatten_append,
        SortedMap.insertAll_append]
      simp
  obtain ⟨s', hrun, hframes⟩ := run_flatMap _
    (fun done s' => s'.frames = s.frames.insertAll done.flatten) rfl hstep
  refine ⟨s', ?_, ?_⟩
  · rw [Frames.segments, flatMap_filterMap]
    exact hrun
  · rw [hframes, hempty, hflatten, SortedMap.insertAll_toList]

/-- **The package of the segments** of a set replays to the set. -/
theorem run_partialPackage_segments {frames : Frames f} (h : frames.Whole) (part : Part f)
    (options : PackageOptions) :
    ∃ s, run part .initial (partialPackage part (frames.segments part) options) = some s ∧
      s.frames = frames := by
  apply run_partialPackage
  intro s hempty
  exact run_segments h part hempty

/-! ## The payload of a whole part -/

/-- **The payload of a part** writes the part's frames into no frames at all. -/
theorem run_assemblePayload {frames : Frames f} (hclimbs : part.Climbs)
    (hframes : ∀ a ∈ part.addresses, (frames.wordsAt a).length = f.wordsPerFrame) {s : State f}
    (hempty : s.frames = .empty) :
    ∃ s', run part s
        ([⟨part.first?.getD ⟨0⟩, frames.assemblePayload part⟩].flatMap frameData) = some s' ∧
      s'.frames = frames.onPart part := by
  obtain ⟨hfirst, hwalks, -⟩ := hclimbs.walks_addresses
  obtain ⟨s₁, hcursor, hs₁, hrun⟩ := run_frameData part
    ⟨part.first?.getD ⟨0⟩, frames.assemblePayload part⟩ s
  refine ⟨_, by rw [List.flatMap_cons, List.flatMap_nil, List.append_nil]; exact hrun, ?_⟩
  rw [frames.assemblePayload_eq, Frames.onPart]
  cases haddresses : part.addresses with
  | nil =>
    have hnone : frames.payloadAlong [] = [] := rfl
    rw [hnone, fill_nil, hs₁, hempty]
    rfl
  | cons a rest =>
    rw [haddresses] at hfirst hwalks hframes
    have hcursor : s₁.cursor = a := by
      rw [hcursor, hfirst]
      rfl
    rw [frames.frames_fill_payloadAlong (hwalks (List.cons_ne_nil _ _)) hframes hcursor, hs₁,
      hempty]

/-! ## The size of a package -/

theorem length_words_le (p : Packet f) : p.words.length ≤ p.data.length + 3 := by
  have hheader : p.headerWords.length ≤ 3 := by
    simp only [headerWords]
    split <;> simp
  rw [words, List.length_append]
  omega

theorem length_flatMap_words_le {packets : List (Packet f)}
    (h : ∀ p ∈ packets, p.data.length ≤ 2) :
    (packets.flatMap words).length ≤ packets.length * 5 := by
  induction packets with
  | nil => exact Nat.le_refl 0
  | cons p rest ih =>
    have hp := h p List.mem_cons_self
    have hwords := length_words_le p
    have hrest := ih fun q hq => h q (List.mem_cons_of_mem _ hq)
    rw [List.flatMap_cons, List.length_append, List.length_cons]
    omega

theorem length_frameData_le (segment : Segment f) :
    ((frameData segment).flatMap words).length ≤ segment.payload.length + 133 := by
  obtain ⟨front, back, heq, hshort, hcount⟩ := frameData_eq segment
  have hfront := length_flatMap_words_le fun p hmem => (hshort p (List.mem_append_left _ hmem)).2
  have hback := length_flatMap_words_le fun p hmem => (hshort p (List.mem_append_right _ hmem)).2
  have hlong : (longWrite (.frameDataInput f) segment.payload).words.length ≤
      segment.payload.length + 3 := length_words_le _
  rw [heq, List.flatMap_append, List.flatMap_cons, List.length_append, List.length_append]
  omega

theorem Checked.length_le {packets checked : List (Packet f)} (h : Checked packets checked) :
    (checked.flatMap words).length ≤ (packets.flatMap words).length + 4 := by
  cases h with
  | unchanged => exact Nat.le_add_right _ _
  | inserted value hpackets _ _ =>
    have hcrc : (write (.crc f) [value]).words.length ≤ 4 := length_words_le _
    rw [hpackets]
    simp only [List.flatMap_append, List.flatMap_cons, List.length_append]
    omega

/-- **A package of one segment** is hardly longer than the payload. -/
theorem length_encodeAll_le (part : Part f) (payload : List Word) (a : FrameAddress f)
    (options : PackageOptions) :
    (encodeAll (partialPackage part [⟨a, payload⟩] options)).length ≤
      payload.length + 4000 := by
  have hlength := length_start part options
  have hheader : f.syncHeader.length ≤ 21 := by cases f <;> decide
  have hboot : (boot f part.idcode).length ≤ 45 := by
    cases f <;> simp [boot, wideBoot, narrowBoot]
  have htail : (tail f).length ≤ 516 := by
    cases f <;> simp [tail, wideTail, narrowTail, trailingNops]
  have hfront := length_flatMap_words_le fun p hmem => (framing_start part options p hmem).short
  have hback := length_flatMap_words_le fun p hmem => (plain_tail f p hmem).short
  have hdata : _ ≤ payload.length + 133 := length_frameData_le ⟨a, payload⟩
  have hwhole := (checked_partialPackage part [⟨a, payload⟩] options).length_le
  simp only [List.flatMap_append, List.flatMap_cons, List.flatMap_nil, List.append_nil,
    List.length_append] at hwhole
  rw [encodeAll, List.length_append]
  omega

/-- The bytes of a full package can be counted in a file header. -/
theorem length_encodeBytes_lt {payload : List Word} (hpayload : payload.length < 2 ^ 27)
    (part : Part f) (options : PackageOptions) :
    (encodeBytes (fullPackage part payload options)).length < 2 ^ 32 := by
  have hwords : (encodeAll (fullPackage part payload options)).length ≤ payload.length + 4000 :=
    length_encodeAll_le part payload (part.first?.getD ⟨0⟩) options
  have hbytes : f.wordBytes ≤ 4 := by cases f <;> decide
  rw [encodeBytes, Family.length_bytesOfWords]
  refine Nat.lt_of_le_of_lt (Nat.mul_le_mul hwords hbytes) ?_
  omega

end Package

end FpgaBitstream
