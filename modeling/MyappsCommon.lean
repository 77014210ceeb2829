import MyappsCommon.Front.Agreement
import MyappsCommon.Front.AuthMessages
import MyappsCommon.Front.Cleared
import MyappsCommon.Front.CompatibilityGate
import MyappsCommon.Front.Connection
import MyappsCommon.Front.CoreMessages
import MyappsCommon.Front.ErrorReports
import MyappsCommon.Front.Formats
import MyappsCommon.Front.InitMessages
import MyappsCommon.Front.MainMessages
import MyappsCommon.Front.Opening
import MyappsCommon.Front.Quarantine
import MyappsCommon.Front.Registry
import MyappsCommon.Front.TwoEnds
import MyappsCommon.Lib.ArchiveExact
import MyappsCommon.Lib.BinaryArchive
import MyappsCommon.Lib.BitField
import MyappsCommon.Lib.BitGroups
import MyappsCommon.Lib.Creation
import MyappsCommon.Lib.Decimal
import MyappsCommon.Lib.FlagWord
import MyappsCommon.Lib.Forest
import MyappsCommon.Lib.Format
import MyappsCommon.Lib.Graph
import MyappsCommon.Lib.Istream
import MyappsCommon.Lib.Path
import MyappsCommon.Lib.Receiver
import MyappsCommon.Lib.Simulation
import MyappsCommon.Reflection.Adds
import MyappsCommon.Reflection.Fields
import MyappsCommon.Utility.Adds
import MyappsCommon.Utility.AppItem
import MyappsCommon.Utility.AppItemEntry
import MyappsCommon.Utility.Archive.BoundedWalk
import MyappsCommon.Utility.Archive.Buffering
import MyappsCommon.Utility.Archive.Confinement
import MyappsCommon.Utility.Archive.Create
import MyappsCommon.Utility.Archive.CreateSoundness
import MyappsCommon.Utility.Archive.Delivery
import MyappsCommon.Utility.Archive.DirGraph
import MyappsCommon.Utility.Archive.EntryOrder
import MyappsCommon.Utility.Archive.ExtractSoundness
import MyappsCommon.Utility.Archive.FileSystem
import MyappsCommon.Utility.Archive.Frame
import MyappsCommon.Utility.Archive.Handles
import MyappsCommon.Utility.Archive.MetaData
import MyappsCommon.Utility.Archive.Mirroring
import MyappsCommon.Utility.Archive.NameAccess
import MyappsCommon.Utility.Archive.OperatingSystem
import MyappsCommon.Utility.Archive.PartialArchive
import MyappsCommon.Utility.Archive.Progress
import MyappsCommon.Utility.Archive.RoundTrip
import MyappsCommon.Utility.Archive.Sizes
import MyappsCommon.Utility.Archive.Stopping
import MyappsCommon.Utility.Archive.Unpack
import MyappsCommon.Utility.Archive.Walk
import MyappsCommon.Utility.Archive.WalkedPaths
import MyappsCommon.Utility.Base64.Codec
import MyappsCommon.Utility.Base64.Grammar
import MyappsCommon.Utility.Base64.Length
import MyappsCommon.Utility.Base64.RoundTrip
import MyappsCommon.Utility.Base64.Texts
import MyappsCommon.Utility.Build
import MyappsCommon.Utility.Error
import MyappsCommon.Utility.Flags
import MyappsCommon.Utility.Hex
import MyappsCommon.Utility.Names
import MyappsCommon.Utility.SavedForm
import MyappsCommon.Utility.Sendable
import MyappsCommon.Utility.Sha256
import MyappsCommon.Utility.Version
