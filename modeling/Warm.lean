import Warm.JournalScan
import Warm.TornAppend
import Warm.ArenaReplay
import Warm.ShardQuery
import Warm.AuditDelivery
import Warm.AuditCompaction
import Warm.JournalRoundTrip
import Warm.ShardSet
import Warm.ShardSlots
import Warm.ShardManager
import Warm.Knowledge
import Warm.DocumentOverlay
import Warm.DocumentListing
import Warm.DeferredEquality
import Warm.Engine
import Warm.EngineRun
import Warm.EngineIndex
import Warm.EngineView
import Warm.EngineReplay
import Warm.EngineReload
import Warm.EngineValidity
import Warm.EngineCompaction
import Warm.EngineCompacted
import Warm.EngineHistory
import Warm.VectorHistory
import Warm.FilterIndex
import Warm.FilterPostings
import Warm.FilterTraining
import Warm.FilterBuild
import Warm.FilterSearch
import Warm.FilterExact
import Warm.BitPacking
import Warm.ProvenanceCodec
import Warm.ProvenanceCredential
import Warm.ProvenanceRecord
import Warm.ProvenanceVerify
import Warm.ProvenanceTrust
import Warm.Lines
import Warm.ProvenanceLog
import Warm.ProvenanceDurability
import Warm.ConversationContext
import Warm.ConversationCanonical
import Warm.ConversationFrame
import Warm.Reachability
import Warm.MemoryIndex
import Warm.MemoryRebuild
import Warm.MemoryRecall
import Warm.MemoryKnowledge
import Warm.MemoryRetry
import Warm.MemoryTorn
import Warm.MemoryIdempotent
import Warm.LexicalRuns
import Warm.Interleaving
import Warm.MemoryPlan
import Warm.MemoryCalls
import Warm.MemorySettle
import Warm.MemoryReads
import Warm.MemoryPlanned
import Warm.MemoryRuns
import Warm.IdempotencyRuns
import Warm.RestoreRuns
import Warm.VectorSnapshotScan
import Warm.VectorStoreAligned
import Warm.TimestampUtc
import Warm.ReceiptInclusion
import Warm.BatchInclusion
import Warm.AgentRegistry
import Warm.StatusList
import Warm.Revocation
import Warm.HashChain
import Warm.LogIntegrity
import Warm.Hex
import Warm.KeyEventLog
import Warm.JumbfTree
import Warm.JumbfRoundTrip
import Warm.RelationRemoval
import Warm.FederatedQuery
import Warm.JournalDamage
import Warm.SegmentInspection
import Warm.FailedCommit
import Warm.EngineFiles
import Warm.Ascending
import Warm.Binding
import Warm.Bundle
import Warm.ChunkSpans
import Warm.BreadthFirst
import Warm.GraphStore
import Warm.Traverse
import Warm.ArenaLayout
import Warm.CompactionTail
import Warm.RuleLookup
import Warm.ConnectionGraph
import Warm.RateLimiter
import Warm.IngestStream
import Warm.PrivateQuery
import Warm.ConnectionLog
import Warm.SparseMatrix
