import FpgaBitstream.Host.Memory
import FpgaBitstream.Packetizer
import FpgaBitstream.Main
import FpgaBitstream.Proofs.BigEndian
import FpgaBitstream.Proofs.Topology
import FpgaBitstream.Proofs.PacketStream
import FpgaBitstream.Proofs.Replay
import FpgaBitstream.Proofs.Packetizing
import FpgaBitstream.Proofs.Package
import FpgaBitstream.Proofs.BitHeader
import FpgaBitstream.Proofs.HeaderGrammar
import FpgaBitstream.Proofs.HeaderCuts
import FpgaBitstream.Proofs.RoundTrip
import FpgaBitstream.Proofs.Walk
import FpgaBitstream.Proofs.Enumeration
import FpgaBitstream.Proofs.Rebuilding
import FpgaBitstream.Proofs.ParityCheck
import FpgaBitstream.Proofs.Crc
import FpgaBitstream.Proofs.Ecc
import FpgaBitstream.Proofs.Decoding
import FpgaBitstream.Proofs.NormalForm
import FpgaBitstream.Proofs.InheritedRegister
import FpgaBitstream.Proofs.Geometry
import FpgaBitstream.Proofs.WellFormedGeometry
import FpgaBitstream.Proofs.GeometryReordering
import FpgaBitstream.Proofs.Hex
import FpgaBitstream.Proofs.Description
import FpgaBitstream.Proofs.RangeParts
import FpgaBitstream.Proofs.FrameFile
import FpgaBitstream.Proofs.Successor
import FpgaBitstream.Proofs.ReplayInvariant
import FpgaBitstream.Proofs.ControlMask
import FpgaBitstream.Proofs.FrameData
import FpgaBitstream.Proofs.Layouts
import FpgaBitstream.Proofs.Restart
import FpgaBitstream.Proofs.Overrun
import FpgaBitstream.Proofs.Delivery
import FpgaBitstream.Proofs.Segments
import FpgaBitstream.Proofs.MultiFrameWrite
import FpgaBitstream.Proofs.IdcodeGate
import FpgaBitstream.Proofs.BitSerial
import FpgaBitstream.Proofs.CrcCheck
import FpgaBitstream.Proofs.EccArithmetic
import FpgaBitstream.Proofs.EccUpdate
import FpgaBitstream.Proofs.FrameText
import FpgaBitstream.Proofs.ZeroFilling
import FpgaBitstream.Proofs.PacketCursor
import FpgaBitstream.Proofs.SyncWord
import FpgaBitstream.Proofs.AddressFields
import FpgaBitstream.Proofs.Drawing
import FpgaBitstream.Proofs.StartupOverride
import FpgaBitstream.Proofs.FieldWrites
import FpgaBitstream.Proofs.WordsInPlace
import FpgaBitstream.Proofs.Grouping
