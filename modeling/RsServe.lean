import RsServe.DiskPath
import RsServe.AuthStore
import RsServe.Authorize
import RsServe.Users
import RsServe.Webfinger
import RsServe.ScopeEntry
import RsServe.Sessions
import RsServe.NameTree
import RsServe.TreeWalk
import RsServe.Kernel
import RsServe.EarlyExit
import RsServe.Attributes
import RsServe.JsonWriter
import RsServe.Storage
import RsServe.StorageRules
import RsServe.Dispatch
import RsServe.Descriptors
import RsServe.GluedNames
import RsServe.PathRewriting
import RsServe.ChildPaths
import RsServe.FolderRequests
import RsServe.Responses
import RsServe.PutResults
import RsServe.DeleteResults
import RsServe.Leaks
import RsServe.SystemCalls
import RsServe.DescriptorBalance
import RsServe.TreeCalls
import RsServe.FolderVersions
import RsServe.Listings
import RsServe.ConditionalWrites
import RsServe.DocumentMap
import RsServe.CanonicalPaths
import RsServe.Documents
import RsServe.Histories
import RsServe.FolderContents
import RsServe.Grants
import RsServe.AuthPage
import RsServe.Announcements
import RsServe.TokenListings
import RsServe.PidFileOwners
import RsServe.AttributeReads
import RsServe.ContentTypes
import RsServe.JsonText
import RsServe.JsonDocuments
import RsServe.AddToken
import RsServe.CorruptRecords
import RsServe.PollLoop
import RsServe.ScopeAgreement
import RsServe.CursorLoops
import RsServe.FileReads
import RsServe.MediaTypes
import RsServe.StoredTypes
import RsServe.AttributeBuffers
import RsServe.LogBuffers
import RsServe.JsonNesting
import RsServe.PrefixTree
import RsServe.Trie
import RsServe.TrieMap
import RsServe.TrieArrays
