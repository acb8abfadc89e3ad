import NyxDb.Catalog.AcceptedTables
import NyxDb.Catalog.Drop
import NyxDb.Catalog.Durability
import NyxDb.Executor.ColumnTypes
import NyxDb.Index.KeyOrder
import NyxDb.Index.Layout
import NyxDb.Index.PageCache
import NyxDb.Index.EntryCount
import NyxDb.Maintenance.ConcurrentRuns
import NyxDb.Maintenance.DeadRows
import NyxDb.Maintenance.Neutral
import NyxDb.Replication.Agreement
import NyxDb.Replication.Completeness
import NyxDb.Replication.Follower
import NyxDb.Replication.SnapshotPeer
import NyxDb.Server.Auth
import NyxDb.Server.Failover
import NyxDb.Server.WriteClassification
import NyxDb.Sharding.Pruning
import NyxDb.Sharding.WriteRouting
import NyxDb.Sql.CivilCalendar
import NyxDb.Sql.IntLiterals
import NyxDb.Storage.ColumnRuns
