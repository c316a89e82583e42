import Notbit.Base58Texts
import Notbit.Connection.Lists
import Notbit.Connection.Sent
import Notbit.Crypto.OwnKeys
import Notbit.Crypto.Tasks
import Notbit.Daemon.Deliveries
import Notbit.Daemon.IdleSources
import Notbit.Daemon.Restarts
import Notbit.Ecc.Stream
import Notbit.HashTableMap
import Notbit.Ipc.Answers
import Notbit.Ipc.Client
import Notbit.Ipc.Emails
import Notbit.Ipc.Keygen
import Notbit.Ipc.LifeCycle
import Notbit.Ipc.Server
import Notbit.Keyring.Cookies
import Notbit.Keyring.Mail
import Notbit.Keyring.Plaintext
import Notbit.Keyring.PubkeyRuns
import Notbit.Keyring.Recipients
import Notbit.Keyring.Records
import Notbit.Keyring.Requests
import Notbit.Log
import Notbit.Mail.Accepted
import Notbit.Mail.Base64Room
import Notbit.Mail.ContentTypeGrammar
import Notbit.Mail.HeaderNames
import Notbit.Mail.Headers
import Notbit.Mail.LineEndings
import Notbit.Mail.Replies
import Notbit.Mail.Splits
import Notbit.Mail.Subjects
import Notbit.MainContext.Additions
import Notbit.MainContext.Polls
import Notbit.Network.Announced
import Notbit.Network.ConnectQueue
import Notbit.Network.Consistent
import Notbit.Network.Convergence
import Notbit.Network.Duplicates
import Notbit.Network.Getdata
import Notbit.Network.Handshake
import Notbit.Network.Listening
import Notbit.Network.Objects
import Notbit.Pow.Overtaking
import Notbit.Proto.Overreads
import Notbit.Proto.Pieces
import Notbit.Signals
import Notbit.Slice
import Notbit.Store.AddrList
import Notbit.Store.Cleanup
import Notbit.Store.Loads
import Notbit.Store.MaildirNames
import Notbit.Store.Numbers
import Notbit.Store.Saves
