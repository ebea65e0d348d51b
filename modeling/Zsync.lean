import Zsync.Foundations.Runs
import Zsync.Foundations.Files
import Zsync.Foundations.FilePrograms
import Zsync.Foundations.Forest
import Zsync.Model.Protocol
import Zsync.Model.Suppress
import Zsync.Model.Clipboard
import Zsync.Model.FileBackend
import Zsync.Model.Config
import Zsync.Model.Group
import Zsync.Model.Net
import Zsync.Model.Daemon
import Zsync.Model.Hub
import Zsync.Hubs.Outcomes
import Zsync.Hubs.FailedApply
import Zsync.Hubs.Network
import Zsync.Hubs.Forwarding
import Zsync.Hubs.Echo
import Zsync.Hubs.Agreement
import Zsync.Hubs.Rewriting
import Zsync.Storage.Containment
import Zsync.Daemon.Disconnect
import Zsync.Foundations.Claims
import Zsync.Model.Sessions
import Zsync.Daemon.LiveClaims
import Zsync.Foundations.Reader
import Zsync.Foundations.Streams
import Zsync.Model.Framing
import Zsync.Daemon.FrameLoss
import Zsync.Model.Rooms
import Zsync.Relay.Registration
import Zsync.Relay.Ghosts
import Zsync.Model.Traffic
import Zsync.Relay.Isolation
import Zsync.Model.ClipBody
import Zsync.Model.Envelope
import Zsync.Wire.Streams
import Zsync.Wire.ClipCodec
import Zsync.Model.Saving
import Zsync.Storage.Sequence
import Zsync.Model.Lifetime
import Zsync.Hubs.UserCopies
import Zsync.Hubs.Freshness
import Zsync.Model.GroupLeaf
import Zsync.Relay.Rollback
import Zsync.Model.Watcher
import Zsync.Daemon.Restart
import Zsync.Foundations.Broadcast
import Zsync.Model.Fanout
import Zsync.Hubs.LastCopy
import Zsync.Model.SessionBytes
import Zsync.Hubs.WholeFrames
import Zsync.Relay.Backpressure
import Zsync.Relay.Silencing
import Zsync.Model.Allowlist
import Zsync.Relay.Admission
import Zsync.Daemon.SessionSteps
import Zsync.Daemon.OneSession
import Zsync.Daemon.Mirror
import Zsync.Model.Applying
import Zsync.Hubs.Concurrent
import Zsync.Wire.Authenticity
import Zsync.Daemon.Redaction
import Zsync.Model.Pins
import Zsync.Daemon.Trust
import Zsync.Foundations.CutPrograms
import Zsync.Model.Projection
import Zsync.Storage.CutCalls
import Zsync.Storage.Projection
import Zsync.Wire.HostPort
import Zsync.Wire.Addresses
import Zsync.Wire.Invitations
import Zsync.Model.SessionLoops
import Zsync.Relay.BadPayloads
import Zsync.Wire.Emitted
import Zsync.Relay.SenderIds
import Zsync.Relay.Returning
import Zsync.Foundations.Json
import Zsync.Foundations.Lines
import Zsync.Model.Ipc
import Zsync.Wire.IpcStreams
import Zsync.Model.Paste
import Zsync.Daemon.Pasting
import Zsync.Model.Admin
import Zsync.Relay.Status
import Zsync.Foundations.Sequenced
import Zsync.Model.Commands
import Zsync.Relay.LostUpdates
import Zsync.Model.Handshake
import Zsync.Relay.Probing
import Zsync.Foundations.UnixPaths
import Zsync.Foundations.Utf8
import Zsync.Foundations.Backoff
import Zsync.Wire.FrameReaders
import Zsync.Hubs.EchoWindow
import Zsync.Relay.ProbeBans
import Zsync.Storage.Basenames
import Zsync.Storage.FileUris
import Zsync.Storage.PeerSaves
import Zsync.Daemon.FailedCopies
import Zsync.Model.GroupsJson
import Zsync.Relay.Unreadable
import Zsync.Model.Maintain
import Zsync.Daemon.Reconnecting
import Zsync.Model.Statuses
import Zsync.Daemon.ShownPeers
import Zsync.Daemon.PastPeers
import Zsync.Foundations.Escapes
import Zsync.Storage.PercentCoding
import Zsync.Relay.EmptyGroups
import Zsync.Relay.Identifiers
import Zsync.Foundations.HighWater
import Zsync.Hubs.NewMaxima
import Zsync.Foundations.Quoting
import Zsync.Model.Darwin
import Zsync.Storage.AppleScript
import Zsync.Relay.Ordering
import Zsync.Relay.Revocation
import Zsync.Model.Copying
import Zsync.Daemon.Copying
import Zsync.Model.PasteOutput
import Zsync.Daemon.PasteOutput
import Zsync.Model.Lifecycle
import Zsync.Daemon.Lifecycle
import Zsync.Model.Desktop
import Zsync.Daemon.NamedFiles
import Zsync.Model.ServerCert
import Zsync.Relay.ServerCert
import Zsync.Model.Pushing
import Zsync.Hubs.Pushing
import Zsync.Model.RelayNet
import Zsync.Relay.Sealing
import Zsync.Relay.Delivery
import Zsync.Relay.Completeness
import Zsync.Foundations.Register
import Zsync.Model.Xclip
import Zsync.Model.CommandLine
import Zsync.Storage.ReadBack
import Zsync.Daemon.CommandLine
