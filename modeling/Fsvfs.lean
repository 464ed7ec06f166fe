import Fsvfs.Lib.PathTree
import Fsvfs.Filesystem.Tree
import Fsvfs.Filesystem.Rofs
import Fsvfs.Filesystem.Layout
import Fsvfs.Filesystem.Lookup
import Fsvfs.Filesystem.Build
import Fsvfs.Filesystem.Inode
import Fsvfs.Filesystem.Merge
import Fsvfs.Lib.Bytes
import Fsvfs.Bhd5.Format
import Fsvfs.Bhd5.WellFormed
import Fsvfs.Bhd5.Image
import Fsvfs.Bhd5.Routing
import Fsvfs.Dvdbnd.Dict
import Fsvfs.Lib.Hex
import Fsvfs.Dvdbnd.Encryption
import Fsvfs.Dvdbnd.Filesystem
import Fsvfs.Filesystem.Files
import Fsvfs.Dvdbnd.Entries
import Fsvfs.Dvdbnd.SrcIdMap
import Fsvfs.Dvdbnd.Finish
import Fsvfs.Crypto.Rsa
import Fsvfs.Lib.Memo
import Fsvfs.Dvdbnd.Mount
import Fsvfs.Dvdbnd.Cache
import Fsvfs.Dvdbnd.Decrypt
import Fsvfs.Dvdbnd.Patch
import Fsvfs.Dvdbnd.Store
import Fsvfs.Dvdbnd.Aligned
import Fsvfs.Lib.Traced
import Fsvfs.Dvdbnd.CiphertextBuffer
import Fsvfs.Dvdbnd.Read
import Fsvfs.Dvdbnd.Sweep
import Fsvfs.Dvdbnd.Request
import Fsvfs.Dvdbnd.Slices
import Fsvfs.Dvdbnd.Rounds
import Fsvfs.Dvdbnd.Neighbours
import Fsvfs.Dvdbnd.Contents
import Fsvfs.Dvdbnd.Records
import Fsvfs.Dvdbnd.Panics
import Fsvfs.Dvdbnd.Truncated
import Fsvfs.Dvdbnd.ShortReads
import Fsvfs.Lib.Io
import Fsvfs.Crypto.RsaDecryptor
import Fsvfs.Lib.Paging
import Fsvfs.Filesystem.Listing
import Fsvfs.Dvdbnd.Fuser
import Fsvfs.Dvdbnd.Projfs
import Fsvfs.Dvdbnd.Enumerate
import Fsvfs.Hash.Mad
import Fsvfs.Hash.Normal
import Fsvfs.Crypto.Der
import Fsvfs.Crypto.DerKey
import Fsvfs.Crypto.RsaFailures
import Fsvfs.Crypto.RsaRuns
import Fsvfs.Dvdbnd.Windows
import Fsvfs.Filesystem.Represents
import Fsvfs.Filesystem.Built
import Fsvfs.Filesystem.Reaches
import Fsvfs.Dvdbnd.Fallback
import Fsvfs.Lib.Slots
import Fsvfs.Dvdbnd.Pool
import Fsvfs.Dvdbnd.Visits
import Fsvfs.Crypto.Limbs
import Fsvfs.Bhd5.Salt
import Fsvfs.Dvdbnd.ReadFiles
import Fsvfs.Dvdbnd.Keys
import Fsvfs.Crypto.RsaPrefix
import Fsvfs.Dvdbnd.Detect
import Fsvfs.Dvdbnd.DictFiles
import Fsvfs.Dvdbnd.Session
import Fsvfs.Dvdbnd.SessionReads
import Fsvfs.Dvdbnd.Named
import Fsvfs.Dvdbnd.Hydration
