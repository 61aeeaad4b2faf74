import SecureIpc.Security.Audit
import SecureIpc.Lib.Circular
import SecureIpc.Security.AuditLog
import SecureIpc.Lib.Bytes
import SecureIpc.Mm.Address
import SecureIpc.Mm.PageTable
import SecureIpc.Mm.UserRange
import SecureIpc.Mm.UserBuffer
import SecureIpc.Mm.FrameAllocator
import SecureIpc.Mm.MemorySet
import SecureIpc.Mm.Supply
import SecureIpc.Security.Quota
import SecureIpc.Fs.Pipe
import SecureIpc.Mm.UserAccess
import SecureIpc.Task.Signal
import SecureIpc.Kernel
import SecureIpc.Task.Process
import SecureIpc.Fs.File
import SecureIpc.Security.Facade
import SecureIpc.Task.Delivery
import SecureIpc.Syscall.Fs
import SecureIpc.Syscall.Process
import SecureIpc.Syscall.Security
import SecureIpc.Trap
import SecureIpc.Lib.Ownership
import SecureIpc.Mm.Frames
import SecureIpc.Mm.Tree
import SecureIpc.Mm.Mapping
import SecureIpc.Run.Act
import SecureIpc.Run.ProcessTable
import SecureIpc.Fs.Ring
import SecureIpc.Run.Sound
import SecureIpc.Run.Does
import SecureIpc.Run.Files
import SecureIpc.Run.Transfers
import SecureIpc.Run.Processes
import SecureIpc.Run.System
import SecureIpc.Run.Calls
import SecureIpc.Run.Step
import SecureIpc.Run.Trace
import SecureIpc.Run.Delivery
import SecureIpc.Guarantees.Descriptors
import SecureIpc.Guarantees.Processes
import SecureIpc.Guarantees.Confinement
import SecureIpc.Guarantees.Audit
import SecureIpc.Guarantees.JobControl
import SecureIpc.Guarantees.Sigreturn
import SecureIpc.EasyFs.BlockCache
import SecureIpc.EasyFs.Transparent
import SecureIpc.Security.Snapshot
import SecureIpc.User.Auditctl
import SecureIpc.Guarantees.LogReader
import SecureIpc.Guarantees.AuditRead
import SecureIpc.Lib.CString
import SecureIpc.Mm.UserString
import SecureIpc.Mm.UserCopy
import SecureIpc.Mm.Area
import SecureIpc.Mm.Space
import SecureIpc.Mm.Build
import SecureIpc.Mm.Image
import SecureIpc.Mm.UserSpace
import SecureIpc.Task.Arguments
import SecureIpc.Run.Isolation
import SecureIpc.Guarantees.Isolation
import SecureIpc.Guarantees.Pipes
import SecureIpc.Guarantees.AuditCall
import SecureIpc.Run.Quiet
import SecureIpc.Task.Argv
import SecureIpc.Guarantees.Exec
import SecureIpc.Guarantees.ExecCall
import SecureIpc.Guarantees.Pending
import SecureIpc.Guarantees.Replies
import SecureIpc.Guarantees.Translation
import SecureIpc.Guarantees.Fork
import SecureIpc.Guarantees.Loading
import SecureIpc.EasyFs.Bitmap
import SecureIpc.EasyFs.Efs
import SecureIpc.EasyFs.Vfs
import SecureIpc.EasyFs.Codec
import SecureIpc.EasyFs.Format
import SecureIpc.Guarantees.Areas
import SecureIpc.EasyFs.BlockTree
import SecureIpc.EasyFs.Growth
import SecureIpc.Guarantees.FrameAllocation
import SecureIpc.EasyFs.Release
import SecureIpc.Guarantees.BlockIndexing
import SecureIpc.Guarantees.KernelStacks
import SecureIpc.Guarantees.Family
import SecureIpc.Guarantees.NonInterference
import SecureIpc.Run.History
import SecureIpc.Guarantees.PipeStreams
import SecureIpc.Guarantees.PipeAudit
import SecureIpc.Guarantees.QuotaIsolation
import SecureIpc.EasyFs.Contents
import SecureIpc.EasyFs.Geometry
import SecureIpc.EasyFs.Operations
import SecureIpc.EasyFs.Clean
import SecureIpc.EasyFs.Directory
import SecureIpc.EasyFs.Creation
import SecureIpc.EasyFs.FileMap
import SecureIpc.Guarantees.Accounting
import SecureIpc.Guarantees.Files
import SecureIpc.Guarantees.Names
import SecureIpc.Guarantees.Segments
import SecureIpc.Guarantees.OpenFiles
import SecureIpc.Run.FileInvariant
import SecureIpc.EasyFs.Listing
import SecureIpc.Guarantees.DiskInvariant
import SecureIpc.Guarantees.DiskBoot
import SecureIpc.Guarantees.FailedOpen
import SecureIpc.Guarantees.FileIo
