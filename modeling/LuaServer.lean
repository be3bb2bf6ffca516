import LuaServer.FueledLoops
import LuaServer.MachineIntegers
import LuaServer.ClearGridLines
import LuaServer.PredecessorLinks
import LuaServer.WaypointMerging
import LuaServer.OrderedMultisets
import LuaServer.AstarCorrectness
import LuaServer.AstarBindings
import LuaServer.JpsPathValidity
import LuaServer.RankAgreement
import LuaServer.VersionReader
import LuaServer.VersionCrashSafety
import LuaServer.LevelDbTraversals
import LuaServer.SlgViews
import LuaServer.SlgEntities
import LuaServer.SlgVisionIndex
import LuaServer.TimerIndex
import LuaServer.RankHistory
import LuaServer.RankPages
import LuaServer.RankSnapshots
import LuaServer.LevelDbHashes
import LuaServer.GroupElection
import LuaServer.GroupAgreement
import LuaServer.VersionRestarts
import LuaServer.VersionSnapshots
import LuaServer.AoiExactness
import LuaServer.MsgpackTruncation
import LuaServer.MsgpackRoundTrip
import LuaServer.MsgpackScript
import LuaServer.JpsCompleteness
import LuaServer.JpsJumpDistances
import LuaServer.LruCache
import LuaServer.LruHistory
import LuaServer.PrefixedEntries
import LuaServer.TrieSnapshots
import LuaServer.SlgBlocks
import LuaServer.SlgLoops
import LuaServer.SlgAreas
import LuaServer.SlgSightLines
import LuaServer.MapInstances
import LuaServer.MapWindows
import LuaServer.MapSearches
import LuaServer.SkillRanges
import LuaServer.MsgpackStreams
import LuaServer.DbProxy
import LuaServer.RaftMessages
import LuaServer.RaftSafety
import LuaServer.RunConditions
import LuaServer.Quests
import LuaServer.SyncRecords
import LuaServer.SyncReplicas
import LuaServer.BattleBuffs
import LuaServer.BattleccBuffs
import LuaServer.AttrTotals
import LuaServer.CivilDates
import LuaServer.TimeWindows
import LuaServer.TimeOccurrences
import LuaServer.LuaHeap
import LuaServer.LuaStack
import LuaServer.TableClones
import LuaServer.FirstDiscoveries
import LuaServer.AstarOrder
import LuaServer.AstarCheapest
import LuaServer.MessagePieces
import LuaServer.ReliableStreams
import LuaServer.KcpDatagrams
import LuaServer.KcpWindows
import LuaServer.KcpStreams
import LuaServer.KcpConnections
