import CAdvanced.FallibleExecution
import CAdvanced.BlockArena
import CAdvanced.CString
import CAdvanced.FiniteMapSpec
import CAdvanced.StoreCalls
import CAdvanced.RedBlackShape
import CAdvanced.RbtreeProgram
import CAdvanced.RbtreeRep
import CAdvanced.RbtreeRotation
import CAdvanced.RotationLinks
import CAdvanced.RbtreeLookup
import CAdvanced.RbtreeAttach
import CAdvanced.RbtreeInsertion
import CAdvanced.RbtreeDeletion
import CAdvanced.RbtreeDetach
import CAdvanced.RbtreeCalls
import CAdvanced.RbtreeEngine
import CAdvanced.RbtreeLedger
import CAdvanced.ArrayProgram
import CAdvanced.ArrayEngine
import CAdvanced.ChainedBuckets
import CAdvanced.HashProgram
import CAdvanced.HashRep
import CAdvanced.HashEngine
import CAdvanced.HashDestruction
import CAdvanced.HashRefinement
import CAdvanced.StaleSlots
import CAdvanced.EngineOwnership
import CAdvanced.EngineDestruction
import CAdvanced.StringTokens
import CAdvanced.ProtocolProgram
import CAdvanced.ProtocolTokens
import CAdvanced.ProtocolParsing
import CAdvanced.ProtocolRefinement
import CAdvanced.EngineInterchange
import CAdvanced.FrontEnds
import CAdvanced.TokenSafety
import CAdvanced.TransitionSystem
import CAdvanced.ThreadPool
import CAdvanced.PoolSignals
import CAdvanced.PoolShutdown
import CAdvanced.PoolTasks
import CAdvanced.Reactor
import CAdvanced.EngineIsolation
import CAdvanced.ReceiveWindow
import CAdvanced.HashIndex
import CAdvanced.AtomicUpdates
import CAdvanced.RbtreeUpdates
import CAdvanced.SearchDepth
import CAdvanced.EchoServer
import CAdvanced.CommandLookup
import CAdvanced.RequestReplies
import CAdvanced.FailedReceive
import CAdvanced.RbtreeDestruction
import CAdvanced.LinkChain
import CAdvanced.TaskQueue
import CAdvanced.PoolRollback
import CAdvanced.SentinelAccess
import CAdvanced.TrackedExecution
import CAdvanced.SentinelRules
import CAdvanced.SentinelIntegrity
import CAdvanced.DeletedNode
import CAdvanced.RepairMeter
import CAdvanced.RepairCost
import CAdvanced.CoroutinePolling
import CAdvanced.EpollReplies
import CAdvanced.CoroutineTrees
