import SealedStream.Device.Guarded
import SealedStream.Device.Medium
import SealedStream.Image
import SealedStream.Reader.ChunkStream
import SealedStream.Reader.StreamDecoder
import SealedStream.Reader.StreamEncoder
import SealedStream.Store.Archive
import SealedStream.Writer.ChunkWriter
import SealedStream.Proofs.Canonicity
import SealedStream.Proofs.Contracts
import SealedStream.Proofs.SizedDecoding
import SealedStream.Proofs.RangeReading
import SealedStream.Proofs.RangeCopying
import SealedStream.Proofs.RangeEquivalence
import SealedStream.Proofs.Traces
import SealedStream.Proofs.Phases
import SealedStream.Proofs.AppendPhases
import SealedStream.Proofs.AppendStates
import SealedStream.Proofs.CrashSafety
import SealedStream.Proofs.AppendLog
import SealedStream.Proofs.ChunkWriting
import SealedStream.Proofs.StreamEncoding
import SealedStream.Proofs.StoreEncoding
import SealedStream.Proofs.EncoderAgreement
import SealedStream.Proofs.StreamDecoding
import SealedStream.Proofs.DecoderAgreement
import SealedStream.Proofs.PieceCopying
import SealedStream.Proofs.Verification
import SealedStream.Proofs.DamagedRanges
import SealedStream.Proofs.RangeAgreement
import SealedStream.Proofs.CrcBursts
import SealedStream.Proofs.LocalDamage
import SealedStream.Proofs.FailedAppends
import SealedStream.Proofs.Returning
import SealedStream.Proofs.ArchiveSafety
import SealedStream.Proofs.CopyingPastEnd
import SealedStream.Proofs.TailRecovery
import SealedStream.Proofs.DeclaredPrefixes
import SealedStream.Proofs.VerifiedRelease
import SealedStream.Proofs.Truncation
import SealedStream.Proofs.Halting
import SealedStream.Proofs.Quiescence
import SealedStream.Proofs.StickyFaults
import SealedStream.Proofs.EncodingGaps
import SealedStream.Proofs.WindowShifts
import SealedStream.Proofs.Alike
import SealedStream.Proofs.StaleScratch
import SealedStream.Proofs.CoveringChunks
import SealedStream.Proofs.StoppedDevices
import SealedStream.Proofs.FailedEncodings
import SealedStream.Proofs.SizeConversion
import SealedStream.Proofs.AddressMap
import SealedStream.Proofs.SliceSafety
import SealedStream.Proofs.SplitWrites
