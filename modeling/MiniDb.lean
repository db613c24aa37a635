import MiniDb.Storage.CommitMarker
import MiniDb.Storage.PageCompaction
import MiniDb.Storage.WriteAhead
import MiniDb.Storage.CatalogFile
import MiniDb.Storage.Streaming
import MiniDb.Storage.SharedLog
import MiniDb.Storage.LsmFiles
import MiniDb.Raft.ElectionSafety
import MiniDb.Raft.ReadIndex
import MiniDb.Raft.AppliedStream
import MiniDb.Raft.OneVote
import MiniDb.Db.Like
import MiniDb.Db.Deadlock
import MiniDb.Db.ThreeValued
import MiniDb.Db.BTreeSearch
import MiniDb.Db.RowCodec
import MiniDb.Db.SecComplete
import MiniDb.Db.JoinMethods
import MiniDb.Db.Parscan
import MiniDb.Db.VacuumRuns
import MiniDb.Storage.Restart
import MiniDb.Db.RefusedPage
