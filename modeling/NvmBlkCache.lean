import NvmBlkCache.BlkPoolRefinement
import NvmBlkCache.Format
import NvmBlkCache.IoHandler
import NvmBlkCache.Layout
import NvmBlkCache.MappingArray
import NvmBlkCache.AccessorCalls
import NvmBlkCache.FormatRun
import NvmBlkCache.FormatRestart
import NvmBlkCache.Mount
import NvmBlkCache.IoSpec
import NvmBlkCache.IoLoop
import NvmBlkCache.IoSplit
import NvmBlkCache.IoRun
import NvmBlkCache.IoData
import NvmBlkCache.IoRemount
import NvmBlkCache.Transparency
import NvmBlkCache.IoFailure
import NvmBlkCache.IoSuccess
import NvmBlkCache.Startup
import NvmBlkCache.CheckedTranslation
import NvmBlkCache.ManagerRun
import NvmBlkCache.PoolDrain
import NvmBlkCache.QueueRun
import NvmBlkCache.TableRun
import NvmBlkCache.TableTraversal
import NvmBlkCache.MetadataReports
import NvmBlkCache.ScanDispatch
import NvmBlkCache.BlockRequest
import NvmBlkCache.BlockRequestData
import NvmBlkCache.CrashImage
import NvmBlkCache.HwQueues
import NvmBlkCache.MapperMemory
import NvmBlkCache.PassThrough
import NvmBlkCache.RunFootprint
import NvmBlkCache.SpentCursor
import NvmBlkCache.TablelessPool
import NvmBlkCache.QueueFaults
