import CloudDisk.CommandPrograms
import CloudDisk.RowTables
import CloudDisk.ByteStrings
import CloudDisk.SortedSets
import CloudDisk.LexCounts
import CloudDisk.SqlTexts
import CloudDisk.SqlFormats
import CloudDisk.SqlReadings
import CloudDisk.CheckedCode
import CloudDisk.ByteBuffers
import CloudDisk.TracedMemory
import CloudDisk.Replacements
import CloudDisk.GrowingBlocks
import CloudDisk.BlockStreams
import CloudDisk.FeistelNetworks
import CloudDisk.BitWirings
import CloudDisk.SineTable
import CloudDisk.DiskState
import CloudDisk.DiskHandlers
import CloudDisk.HandlerRules
import CloudDisk.MembershipTests
import CloudDisk.HandlerEffects
import CloudDisk.DiskCalls
import CloudDisk.ReferenceCounts
import CloudDisk.FileListings
import CloudDisk.PartialFailures
import CloudDisk.SuccessReplies
import CloudDisk.FailurePoints
import CloudDisk.FailedCalls
import CloudDisk.DeleteRetries
import CloudDisk.UploadProtocol
import CloudDisk.Interleavings
import CloudDisk.CommandConflicts
import CloudDisk.ConcurrentCalls
import CloudDisk.ShareLedger
import CloudDisk.CacheEntries
import CloudDisk.ShareReplies
import CloudDisk.ForeignShares
import CloudDisk.AddThenDelete
import CloudDisk.RankingCache
import CloudDisk.RankingReads
import CloudDisk.JsonBodies
import CloudDisk.JsonTexts
import CloudDisk.RequestLoops
import CloudDisk.QueryStrings
import CloudDisk.RequestFields
import CloudDisk.RequestBuffers
import CloudDisk.TokenChecks
import CloudDisk.ForeignDelete
import CloudDisk.MyFilesPage
import CloudDisk.RequestHistories
import CloudDisk.Accounts
import CloudDisk.UniqueRows
import CloudDisk.SqlTemplates
import CloudDisk.RegisterLogin
import CloudDisk.SessionTokens
import CloudDisk.UploadPage
import CloudDisk.UploadBodies
import CloudDisk.RankingRebuilds
import CloudDisk.UploadProcesses
import CloudDisk.MultipartForms
import CloudDisk.UploadedRows
import CloudDisk.StatementLengths
import CloudDisk.DiskTexts
import CloudDisk.RankingPages
import CloudDisk.Base64
import CloudDisk.Rfc1321
import CloudDisk.Md5
import CloudDisk.Md5Digests
import CloudDisk.Des
import CloudDisk.DesInverse
import CloudDisk.Fips46
import CloudDisk.DesStandard
import CloudDisk.DesTexts
import CloudDisk.LoginTokens
import CloudDisk.TextSearches
import CloudDisk.TextTrims
import CloudDisk.TextReplacements
import CloudDisk.HmsetCommands
import CloudDisk.AbstractDisk
import CloudDisk.CallSequences
import CloudDisk.ChunkedStreams
import CloudDisk.ConcurrentAdds
import CloudDisk.Isolation
import CloudDisk.JsonDocuments
import CloudDisk.JsonPrinting
import CloudDisk.JsonRoundTrips
import CloudDisk.LogMessages
import CloudDisk.RedisCommands
import CloudDisk.PrintedReplies
import CloudDisk.ReplyTexts
import CloudDisk.LoginSessions
