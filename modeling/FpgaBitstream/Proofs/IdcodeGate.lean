import FpgaBitstream.Proofs.FrameFile
import FpgaBitstream.Proofs.Segments

/-!
# The IDCODE gate

The only packets that end a replay are writes of a device identifier that is not the one of the
part (`Replay.step_eq_none_iff`): other writes may be malformed and change nothing, and no packet
behind such a write takes it back, so that a run fails exactly if it has one somewhere
(`Replay.run_eq_none_iff`).  The identifier is what the data declares (`idcode?_eq_some_iff`), in
two halves on Spartan-6.

A package has an IDCODE write of its part, in the boot sequence, and no other.  Its bytes hold the
words cut to the stream (`Package.packets_encodeBytes_partialPackage`), which makes no difference to
the identifier, so the package replays on the parts with the identifier of its own part only.
-/

namespace FpgaBitstream

variable {f : Family}

/-! ## What a write declares -/

theorem Register.role_idcode (f : Family) : (Register.idcode f).role = .idcode := by
  cases f <;> rfl

/-- The device identifier in the data of an IDCODE write, as a number: the first word, or on
Spartan-6 the low halves of the first two, the high half first. -/
def declaredIdcode : Family → List Word → Nat
  | .spartan6, data => (data.getD 0 0).toNat % 2 ^ 16 * 2 ^ 16 + (data.getD 1 0).toNat % 2 ^ 16
  | _, data => (data.getD 0 0).toNat

theorem toNat_joinHalves (high low : Word) :
    (Replay.joinHalves high low).toNat = high.toNat % 2 ^ 16 * 2 ^ 16 + low.toNat % 2 ^ 16 := by
  have hmask (word : Word) : (word &&& 0xFFFF).toNat = word.toNat % 2 ^ 16 := by
    rw [BitVec.toNat_and]
    exact Nat.and_two_pow_sub_one_eq_mod _ 16
  have hhigh : high.toNat % 2 ^ 16 * 2 ^ 16 < 2 ^ 32 := by omega
  have hlow : low.toNat % 2 ^ 16 < 2 ^ 16 := Nat.mod_lt _ (Nat.two_pow_pos 16)
  rw [Replay.joinHalves, BitVec.toNat_or, BitVec.toNat_shiftLeft, hmask, hmask, Nat.shiftLeft_eq,
    Nat.mod_eq_of_lt hhigh, ← Nat.shiftLeft_eq, ← Nat.shiftLeft_add_eq_or_of_lt hlow]

/-- **Replay reads the identifier that the data declares**, when there are enough words for one. -/
theorem idcode?_eq_some_iff {data : List Word} {idcode : Word} :
    Replay.idcode? f data = some idcode ↔
      f.idcodeWords ≤ data.length ∧ declaredIdcode f data = idcode.toNat := by
  cases f
  case spartan6 =>
    rcases data with - | ⟨high, - | ⟨low, rest⟩⟩
    · exact ⟨nofun, fun h => absurd h.1 (by decide)⟩
    · exact ⟨nofun, fun h => absurd h.1 (Nat.not_succ_le_self 1)⟩
    · have hwords : Family.spartan6.idcodeWords ≤ (high :: low :: rest).length := Nat.le_add_left 2 _
      have hdeclared : declaredIdcode .spartan6 (high :: low :: rest) =
          (Replay.joinHalves high low).toNat := (toNat_joinHalves high low).symm
      rw [hdeclared, and_iff_right hwords, BitVec.toNat_inj]
      exact Option.some_inj
  all_goals
    rcases data with - | ⟨word, rest⟩
    · exact ⟨nofun, fun h => absurd h.1 (by decide)⟩
    · have hwords : 1 ≤ (word :: rest).length := Nat.le_add_left 1 _
      show some word = some idcode ↔ 1 ≤ (word :: rest).length ∧ word.toNat = idcode.toNat
      rw [and_iff_right hwords, BitVec.toNat_inj]
      exact Option.some_inj

theorem exists_idcode? {data : List Word} (h : f.idcodeWords ≤ data.length) :
    ∃ idcode, Replay.idcode? f data = some idcode := by
  cases f
  case spartan6 =>
    match data, h with
    | high :: low :: rest, _ => exact ⟨_, rfl⟩
  all_goals
    match data, h with
    | word :: rest, _ => exact ⟨_, rfl⟩

/-- A packet that writes the identifier of another device than the part. -/
structure Packet.NamesOther (part : Part f) (p : Packet f) : Prop where
  opcode : p.opcode = .write
  register : p.register = .idcode f
  enough : f.idcodeWords ≤ p.data.length
  differs : declaredIdcode f p.data ≠ part.idcode.toNat

instance (part : Part f) (p : Packet f) : Decidable (p.NamesOther part) :=
  decidable_of_iff (p.opcode = .write ∧ p.register = .idcode f ∧
      f.idcodeWords ≤ p.data.length ∧ declaredIdcode f p.data ≠ part.idcode.toNat)
    ⟨fun ⟨h₁, h₂, h₃, h₄⟩ => ⟨h₁, h₂, h₃, h₄⟩, fun ⟨h₁, h₂, h₃, h₄⟩ => ⟨h₁, h₂, h₃, h₄⟩⟩

/-! ## The gate -/

namespace Replay

variable {part : Part f}

/-- No other write ends the replay, however malformed. -/
theorem exists_idcode_of_write_eq_none {s : State f} {role : RegisterRole} {data : List Word}
    (h : write part s role data = none) :
    role = .idcode ∧ ∃ idcode, idcode? f data = some idcode ∧ idcode ≠ part.idcode := by
  by_contra hnot
  have hmatch : role = .idcode → ∀ idcode, idcode? f data = some idcode →
      idcode = part.idcode := by
    intro hrole idcode hidcode
    by_contra hne
    exact hnot ⟨hrole, idcode, hidcode, hne⟩
  obtain ⟨s', hs'⟩ := exists_write (s := s) hmatch
  cases h.symm.trans hs'

/-- **One packet ends the replay** exactly if it names another device, in any state. -/
theorem step_eq_none_iff {s : State f} {p : Packet f} :
    step part s p = none ↔ p.NamesOther part := by
  constructor
  · intro h
    unfold step at h
    split at h
    case isFalse => cases h
    case isTrue hwrite =>
      obtain ⟨hrole, idcode, hidcode, hne⟩ := exists_idcode_of_write_eq_none h
      obtain ⟨henough, hdeclared⟩ := idcode?_eq_some_iff.1 hidcode
      have hregister : p.register = .idcode f := by
        apply Register.eq_of_role_eq
        · rw [hrole, Register.role_idcode]
        · rw [Register.role_idcode]
          decide
      refine ⟨hwrite, hregister, henough, ?_⟩
      rw [hdeclared]
      exact fun heq => hne (BitVec.eq_of_toNat_eq heq)
  · intro h
    obtain ⟨idcode, hread⟩ := exists_idcode? h.enough
    have hne : idcode ≠ part.idcode := by
      rintro rfl
      exact h.differs (idcode?_eq_some_iff.1 hread).2
    rw [step, if_pos h.opcode, h.register, Register.role_idcode]
    simp only [write, hread, if_neg hne]

/-- **A run fails exactly if one of its packets names another device**, wherever it stands. -/
theorem run_eq_none_iff {s : State f} {packets : List (Packet f)} :
    run part s packets = none ↔ ∃ p ∈ packets, p.NamesOther part := by
  induction packets generalizing s with
  | nil => exact ⟨nofun, fun ⟨p, hmem, _⟩ => absurd hmem List.not_mem_nil⟩
  | cons p rest ih =>
    rw [run_cons, List.exists_mem_cons_iff, ← step_eq_none_iff (s := s)]
    cases hstep : step part s p with
    | none => exact ⟨fun _ => .inl rfl, fun _ => rfl⟩
    | some s' =>
      rw [Option.bind_some, ih]
      exact ⟨.inr, fun h => h.resolve_left nofun⟩

theorem replay_eq_none_iff {packets : List (Packet f)} :
    replay part packets = none ↔ ∃ p ∈ packets, p.NamesOther part := by
  rw [replay, Option.map_eq_none_iff, run_eq_none_iff]

end Replay

/-! ## Segments cut to the stream -/

/-- A segment with its payload cut to the stream. -/
def Segment.cut (segment : Segment f) : Segment f :=
  { segment with payload := segment.payload.map f.cut }

namespace Package

open Packet

variable {part : Part f} {segments : List (Segment f)}

theorem map_cut_of_fits {packets : List (Packet f)} (h : ∀ p ∈ packets, p.Fits) :
    packets.map Packet.cut = packets :=
  (List.map_congr_left fun p hmem => cut_of_holds (h p hmem).words).trans (List.map_id _)

/-- On Spartan-6 there is no check to put in. -/
theorem partialPackage_spartan6 (part : Part .spartan6) (segments : List (Segment .spartan6))
    (options : PackageOptions) :
    partialPackage part segments options =
      start part options ++ segments.flatMap frameData ++ tail .spartan6 := by
  have hnone (packets : List (Packet .spartan6)) : withCrcCheck packets = packets :=
    withCrcCheck_of_eq_none rfl
  rw [partialPackage_eq_withCrcCheck, hnone, ite_self]

theorem frameData_cut (segment : Segment .spartan6) :
    frameData segment.cut = (frameData segment).map Packet.cut := by
  have haddress : (frameAddress segment.start).cut = frameAddress segment.start :=
    cut_of_holds (fits_frameAddress segment.start).1.words
  have hnops : (nops .spartan6 24).map Packet.cut = nops .spartan6 24 :=
    map_cut_of_fits fun p hmem => (plain_nops _ 24 p hmem).fits
  show [frameAddress segment.start, command .spartan6 .writeConfig,
      longWrite (.frameDataInput .spartan6) (segment.payload.map (Family.cut .spartan6))] ++
        nops .spartan6 24 = _
  rw [frameData, List.map_append, hnops, List.map_cons, haddress]
  rfl

/-- **A package with its words cut** is the package of the segments with their words cut. -/
theorem partialPackage_cut (part : Part f) (segments : List (Segment f))
    (options : PackageOptions) :
    partialPackage part (segments.map Segment.cut) options =
      (partialPackage part segments options).map Packet.cut := by
  by_cases hwide : f.hasWideWords = true
  · have hpacket (p : Packet f) : p.cut = p :=
      cut_of_holds fun word _ => f.holds_of_wide hwide word
    have hsegment (segment : Segment f) : segment.cut = segment := by
      rw [Segment.cut, Family.map_cut fun word _ => f.holds_of_wide hwide word]
    rw [List.map_congr_left fun segment _ => hsegment segment, List.map_id',
      List.map_congr_left fun p _ => hpacket p, List.map_id']
  · obtain rfl : f = .spartan6 := by
      cases f
      case spartan6 => rfl
      all_goals exact absurd rfl hwide
    have hstart := map_cut_of_fits fun p hmem => (framing_start part options p hmem).fits
    have htail := map_cut_of_fits fun p hmem => (plain_tail .spartan6 p hmem).fits
    have hdata : (segments.map Segment.cut).flatMap frameData =
        (segments.flatMap frameData).map Packet.cut := by
      rw [List.flatMap_map, List.map_flatMap]
      exact congrArg segments.flatMap (funext frameData_cut)
    rw [partialPackage_spartan6, partialPackage_spartan6, List.map_append, List.map_append, hstart,
      htail, hdata]

/-- **A package is read back** with its words cut to the stream, if no payload is too long. -/
theorem packets_encodeBytes_partialPackage (part : Part f)
    (hlong : ∀ segment ∈ segments, segment.payload.length < f.longLimit)
    (options : PackageOptions) :
    Tool.packets (encodeBytes (partialPackage part segments options)) =
      .ok (partialPackage part (segments.map Segment.cut) options) := by
  have hcut : ∀ segment ∈ segments.map Segment.cut,
      (∀ word ∈ segment.payload, f.Holds word) ∧ segment.payload.length < f.longLimit := by
    intro segment hmem
    obtain ⟨original, horiginal, rfl⟩ := List.mem_map.1 hmem
    constructor
    · intro word hword
      obtain ⟨word, -, rfl⟩ := List.mem_map.1 hword
      exact f.holds_cut word
    · show (original.payload.map f.cut).length < f.longLimit
      rw [List.length_map]
      exact hlong original horiginal
  rw [← encodeBytes_cut, ← partialPackage_cut, Tool.packets_eq_ok]
  apply packets_encodeBytes
  exact sendable_partialPackage options (fun segment hmem => (hcut segment hmem).1)
    fun segment hmem => (hcut segment hmem).2

/-! ## The IDCODE write of a package -/

theorem exists_idcode_mem_boot (f : Family) (idcode : Word) :
    ∃ data, write (.idcode f) data ∈ boot f idcode ∧ Replay.idcode? f data = some idcode := by
  cases f
  case spartan6 =>
    exact ⟨splitHalves idcode, by simp [boot, narrowBoot], idcode?_splitHalves idcode⟩
  all_goals exact ⟨[idcode], by simp [boot, wideBoot], rfl⟩

theorem mem_start {data : List Word} (h : write (.idcode f) data ∈ boot f part.idcode)
    (options : PackageOptions) : write (.idcode f) data ∈ start part options := by
  unfold start
  cases options.cor0 with
  | none => exact h
  | some startup =>
    simp only [Option.elim_some, overrideStartup]
    cases hregister : Register.startupOptions? f with
    | none => exact h
    | some register =>
      have hne : Register.idcode f ≠ register := by
        cases f
        case spartan6 => cases hregister
        all_goals
          obtain rfl := Option.some.inj hregister
          decide
      exact List.mem_map.2 ⟨_, h, if_neg fun hsame => hne hsame.2⟩

theorem Checked.mem {packets checked : List (Packet f)} (h : Checked packets checked)
    {p : Packet f} (hp : p ∈ packets) : p ∈ checked := by
  cases h with
  | unchanged => exact hp
  | inserted value hpackets _ _ =>
    rw [hpackets, List.mem_append] at hp
    exact List.mem_append.2 (hp.imp_right (List.mem_cons_of_mem _))

/-- **A package replays on the parts with the identifier of its own part**, and on no others. -/
theorem isSome_replay_partialPackage_iff (part other : Part f) (segments : List (Segment f))
    (options : PackageOptions) :
    (replay other (partialPackage part segments options)).isSome ↔ part.idcode = other.idcode := by
  rw [Option.isSome_iff_ne_none, ne_eq, Replay.replay_eq_none_iff]
  constructor
  · intro hnone
    by_contra hne
    obtain ⟨data, hboot, hread⟩ := exists_idcode_mem_boot f part.idcode
    obtain ⟨henough, hdeclared⟩ := idcode?_eq_some_iff.1 hread
    have hmem : write (.idcode f) data ∈ partialPackage part segments options := by
      apply (checked_partialPackage part segments options).mem
      exact List.mem_append_left _ (List.mem_append_left _ (mem_start hboot options))
    refine hnone ⟨_, hmem, rfl, rfl, henough, fun hsame => hne ?_⟩
    exact BitVec.eq_of_toNat_eq (hdeclared.symm.trans hsame)
  · rintro hsame ⟨p, hmem, hp⟩
    have hnone : replay part (partialPackage part segments options) = none :=
      Replay.replay_eq_none_iff.2 ⟨p, hmem, hp.opcode, hp.register, hp.enough, hsame ▸ hp.differs⟩
    rw [replay_written] at hnone
    cases hnone

end Package

/-- **The IDCODE gate.**  A replay fails exactly if some packet writes the identifier of another
device, wherever it stands and whatever else is wrong with the packets.  So the package of a part,
read back from its bytes, replays on exactly the parts that have the same identifier. -/
theorem replay_idcodeGate (part : Part f) :
    (∀ packets, replay part packets = none ↔ ∃ p ∈ packets, p.NamesOther part) ∧
    (∀ (segments : List (Segment f)) (options : PackageOptions),
      (∀ segment ∈ segments, segment.payload.length < f.longLimit) →
        ∃ packets, Tool.packets (Packet.encodeBytes (partialPackage part segments options)) =
            .ok packets ∧
          ∀ other : Part f, (replay other packets).isSome ↔ part.idcode = other.idcode) ∧
    (∀ (payload : List Word) (options : PackageOptions), payload.length < f.longLimit →
        ∃ packets, Tool.packets (Packet.encodeBytes (fullPackage part payload options)) =
            .ok packets ∧
          ∀ other : Part f, (replay other packets).isSome ↔ part.idcode = other.idcode) := by
  refine ⟨fun packets => Replay.replay_eq_none_iff, ?_, ?_⟩
  · intro segments options hlong
    have hread := Package.packets_encodeBytes_partialPackage part hlong options
    refine ⟨_, hread, fun other => ?_⟩
    exact Package.isSome_replay_partialPackage_iff part other _ options
  · intro payload options hlong
    have hlong : ∀ segment ∈ [(⟨part.first?.getD ⟨0⟩, payload⟩ : Segment f)],
        segment.payload.length < f.longLimit := List.forall_mem_singleton.2 hlong
    have hread := Package.packets_encodeBytes_partialPackage part hlong options
    refine ⟨_, hread, fun other => ?_⟩
    exact Package.isSome_replay_partialPackage_iff part other _ options

/-- The part of two rows under another identifier, which differs in one bit of the high half. -/
def twoRowsOther : Part .spartan6 := { twoRows with idcode := 0x04010093 }

/-- A segment of the part of two rows, with a word of more than 16 bits. -/
def wideSegment : Segment .spartan6 := ⟨⟨1⟩, 0x10000 :: List.replicate 64 0x1234⟩

theorem replay_idcodeGate_twoRows :
    ∃ packets, Tool.packets (Packet.encodeBytes (partialPackage twoRows [wideSegment]
        { crcCheck := true })) = .ok packets ∧
      (replay twoRows packets).isSome ∧ ¬ (replay twoRowsOther packets).isSome := by
  have hlong : ∀ segment ∈ [wideSegment],
      segment.payload.length < Family.spartan6.longLimit := by decide
  obtain ⟨-, hpartial, -⟩ := replay_idcodeGate twoRows
  obtain ⟨packets, hread, hgate⟩ := hpartial [wideSegment] { crcCheck := true } hlong
  have hne : twoRows.idcode ≠ twoRowsOther.idcode := by decide
  exact ⟨packets, hread, (hgate twoRows).2 rfl, fun hsome => hne ((hgate twoRowsOther).1 hsome)⟩

end FpgaBitstream
