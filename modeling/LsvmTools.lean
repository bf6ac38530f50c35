import LsvmTools.Lib.ByteString
import LsvmTools.Lib.Program
import LsvmTools.Lib.Loop
import LsvmTools.Lib.Sectors
import LsvmTools.Lib.Ranges
import LsvmTools.Lib.KeyedFold
import LsvmTools.Lib.Codec
import LsvmTools.BlockDevice
import LsvmTools.Ext2.Volume
import LsvmTools.Ext2.Layout
import LsvmTools.Ext2.Device
import LsvmTools.Ext2.Records
import LsvmTools.Ext2.Blocks
import LsvmTools.Ext2.Pointers
import LsvmTools.Ext2.Alloc
import LsvmTools.Ext2.Update
import LsvmTools.Ext2.Dir
import LsvmTools.Ext2.Files
import LsvmTools.Ext2.Content
import LsvmTools.Ext2.Write
import LsvmTools.Ext2.Ops
import LsvmTools.Ext2.Access
import LsvmTools.Ext2.Check
import LsvmTools.Ext2.DeviceExact
import LsvmTools.Ext2.Open
import LsvmTools.Ext2.BlockAddress
import LsvmTools.Ext2.OpenSafe
import LsvmTools.Ext2.DirRewrite
import LsvmTools.Ext2.RoundTrip
import LsvmTools.Ext2.DirWalk
import LsvmTools.Ext2.FileCursor
import LsvmTools.Ext2.FileReaders
import LsvmTools.Blkdev
import LsvmTools.MemBlkdev
import LsvmTools.EfiBlkdev
import LsvmTools.CacheBlkdev
import LsvmTools.CacheCoherence
import LsvmTools.Luks
import LsvmTools.LuksBlkdev
import LsvmTools.DiskBio
import LsvmTools.DiskOverlay
import LsvmTools.DiskFrame
import LsvmTools.Strings
import LsvmTools.Vfat.Shortname
import LsvmTools.Vfat.Volume
import LsvmTools.Vfat.Entries
import LsvmTools.Vfat.Alloc
import LsvmTools.Vfat.Walk
import LsvmTools.Vfat.Files
import LsvmTools.Vfat.Mount
import LsvmTools.Vfat.Lookup
import LsvmTools.Cpio
import LsvmTools.CpioFormat
import LsvmTools.CpioAdd
import LsvmTools.CpioRemove
import LsvmTools.CpioSafe
import LsvmTools.CpioSplit
import LsvmTools.CpioConcat
import LsvmTools.Initrd
import LsvmTools.InitrdArchive
import LsvmTools.InitrdKeys
import LsvmTools.PeImage
import LsvmTools.PeCoverage
import LsvmTools.Guid
import LsvmTools.ShaHash
import LsvmTools.LuksHeader
import LsvmTools.LuksKeys
import LsvmTools.LuksUnlock
import LsvmTools.Measurement
import LsvmTools.MeasurePolicy
import LsvmTools.TpmBlob
import LsvmTools.TpmBlobCodec
import LsvmTools.TpmSeal
import LsvmTools.SealReported
import LsvmTools.PcrPrediction
import LsvmTools.SpecSafe
import LsvmTools.Vfat.Put
import LsvmTools.LuksMerge
import LsvmTools.Grub.Newline
import LsvmTools.Grub.Patch
import LsvmTools.PcrCap
import LsvmTools.Conf
import LsvmTools.GptTable
import LsvmTools.Keys
import LsvmTools.PeSigning
import LsvmTools.PolicyGrammar
import LsvmTools.TpmHandles
import LsvmTools.TpmUnpack
import LsvmTools.DbEntry
import LsvmTools.BootPartition
import LsvmTools.PeLoader
import LsvmTools.EfiVfat
import LsvmTools.EfiFile
import LsvmTools.Posix.Time
import LsvmTools.Posix.Strcasecmp
import LsvmTools.Posix.Files
import LsvmTools.Sorting
import LsvmTools.Posix.Alloc
import LsvmTools.Pass
import LsvmTools.GuidText
import LsvmTools.Lib.Simulation
import LsvmTools.Lib.Verdict
import LsvmTools.Lib.Calls
import LsvmTools.CpioStore
import LsvmTools.InitrdOutcome
import LsvmTools.Vfat.Store
import LsvmTools.BootSequence
import LsvmTools.BootDevice
import LsvmTools.Ext2.CheckVerdict
import LsvmTools.PeMemory
import LsvmTools.Grub.DefaultEntry
