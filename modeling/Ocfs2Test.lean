import Ocfs2Test.LvbTorture.Progress
import Ocfs2Test.LockGrab.Safety
import Ocfs2Test.Holes.ExitStatus
import Ocfs2Test.Holes.Coverage
import Ocfs2Test.Holes.Populate
import Ocfs2Test.DirectIO.BasicAgreement
import Ocfs2Test.DirectIO.MultiAbort
import Ocfs2Test.Reflink.Agreement
import Ocfs2Test.Reflink.Snapshot
import Ocfs2Test.Reflink.TableIndices
import Ocfs2Test.Reflink.OrigFile
import Ocfs2Test.MultiMmap.Safety
import Ocfs2Test.AppendTruncate
import Ocfs2Test.ExtendAndWrite
import Ocfs2Test.Truncate
import Ocfs2Test.Chunks.Frager
import Ocfs2Test.Chunks.Residue
import Ocfs2Test.Dirs.Verdict
import Ocfs2Test.Dirs.AnyCalls
import Ocfs2Test.Dirs.Contention
import Ocfs2Test.Xattr.MultiSafety
import Ocfs2Test.Quota.ConcurrentRw
import Ocfs2Test.Reflink.WorkSplit
import Ocfs2Test.InlineData.RegularFile
import Ocfs2Test.Chunks.WriteOrder
import Ocfs2Test.FileOps.ReadAt
import Ocfs2Test.Reflink.AtRandom
import Ocfs2Test.Reflink.PunchHole
import Ocfs2Test.Xattr.Names
import Ocfs2Test.Xattr.Structured
import Ocfs2Test.Xattr.Listing
import Ocfs2Test.FileOps.PrepChunks
import Ocfs2Test.Reflink.RandomEa
import Ocfs2Test.Dirs.Destroy
import Ocfs2Test.InlineData.Shadow
import Ocfs2Test.LockGrab.Options
import Ocfs2Test.Dirs.BuildTree
import Ocfs2Test.Dirs.Retries
import Ocfs2Test.Dirs.GrowTest
import Ocfs2Test.TestTruncate.CreateFile
import Ocfs2Test.TestTruncate.Extend
import Ocfs2Test.WriteTorture
import Ocfs2Test.EnospcTest
import Ocfs2Test.PythonCommon.Del
import Ocfs2Test.Chunks.VerifyFileOptions
import Ocfs2Test.Chunks.Crc32Bits
import Ocfs2Test.Dirs.RandomNames
import Ocfs2Test.MpiRunParts
import Ocfs2Test.Fsx.Runs
import Ocfs2Test.Fsx.History
import Ocfs2Test.Fsx.Options
import Ocfs2Test.AioStress.Workers
import Ocfs2Test.NodeRaces.CreateRacer
import Ocfs2Test.NodeRaces.OpenDelete
import Ocfs2Test.FlockTests.Runs
import Ocfs2Test.AioStress.Stages
