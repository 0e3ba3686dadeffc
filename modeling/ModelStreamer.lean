import ModelStreamer.AsyncIo.BackendPools
import ModelStreamer.AsyncIo.MountEngines
import ModelStreamer.AsyncIo.DirectPass
import ModelStreamer.Common.ClientMgrSpec
import ModelStreamer.Streamer.AccountingSpec
import ModelStreamer.Streamer.OneResponse
import ModelStreamer.AsyncIo.ChunkSizes
import ModelStreamer.AsyncIo.ChunkRead
import ModelStreamer.AsyncIo.ChunkReadSpec
import ModelStreamer.AsyncIo.ChunkEof
import ModelStreamer.Distributed.SpanEnds
import ModelStreamer.Distributed.Partition
import ModelStreamer.Distributed.PartitionBalance
import ModelStreamer.Distributed.PartitionCover
import ModelStreamer.Distributed.BroadcastContract
import ModelStreamer.ObjectStorage.RoutingContract
import ModelStreamer.Lib.Script
import ModelStreamer.Lib.IntervalCover
import ModelStreamer.Safetensors.Metadata
import ModelStreamer.Safetensors.HeaderTiling
import ModelStreamer.ObjectStorage.AzureCredentials
import ModelStreamer.ObjectStorage.ClientRead
import ModelStreamer.ObjectStorage.ClientReadSpec
import ModelStreamer.ObjectStorage.StoppedRead
import ModelStreamer.FileStreamer.Pipeline
import ModelStreamer.FileStreamer.RequestsSpec
import ModelStreamer.FileStreamer.RingSpec
import ModelStreamer.FileStreamer.PipelineSpec
import ModelStreamer.FileStreamer.PipelineYield
import ModelStreamer.FileStreamer.PipelineContract
import ModelStreamer.FileStreamer.SlotPoolRuns
import ModelStreamer.FileStreamer.RequestStream
import ModelStreamer.FileStreamer.Placement
import ModelStreamer.FileStreamer.RingBounds
import ModelStreamer.Streamer.RunningCount
import ModelStreamer.Streamer.ChunkAgreement
import ModelStreamer.PosixIo.LibaioEngine
import ModelStreamer.PosixIo.LibaioSpec
import ModelStreamer.DeviceIo.CopyPath
import ModelStreamer.DeviceIo.CopySpec
import ModelStreamer.Common.SharedQueueSteps
import ModelStreamer.Lib.IdRing
import ModelStreamer.Streamer.Registry
import ModelStreamer.Streamer.SyncRead
import ModelStreamer.Streamer.SyncReadSpec
import ModelStreamer.Streamer.SyncReadEof
import ModelStreamer.AsyncIo.ZeroSized
import ModelStreamer.DeviceIo.DeviceRead
import ModelStreamer.DeviceIo.DeviceReadSpec
import ModelStreamer.DeviceIo.DeviceReadAnswers
import ModelStreamer.Streamer.DivisionSpec
import ModelStreamer.Streamer.AsyncRequest
import ModelStreamer.Streamer.FsQueueDepth
import ModelStreamer.Streamer.Relocation
import ModelStreamer.Streamer.WrappedRanges
import ModelStreamer.Streamer.WrapRefused
import ModelStreamer.FileStreamer.RingPlanner
import ModelStreamer.DeviceIo.StagingPool
import ModelStreamer.DeviceIo.StagingContract
import ModelStreamer.Lib.Loans
import ModelStreamer.ObjectStorage.WorkerBuffers
import ModelStreamer.ObjectStorage.WorkerAborts
import ModelStreamer.ObjectStorage.BufferContract
import ModelStreamer.ObjectStorage.ReleaseContract
import ModelStreamer.AsyncIo.Worker
import ModelStreamer.AsyncIo.WorkerTurns
import ModelStreamer.Lib.Tally
import ModelStreamer.AsyncIo.WorkerAnswers
import ModelStreamer.AsyncIo.WorkerChunks
import ModelStreamer.AsyncIo.WorkerContract
import ModelStreamer.AsyncIo.AbortContract
import ModelStreamer.AsyncIo.WorkerQueue
import ModelStreamer.PosixIo.IoUringBuffers
