import DWindow.Lib.Runs
import DWindow.Lib.Slice
import DWindow.Cache.InetFile
import DWindow.Cache.Get
import DWindow.Cache.Feed
import DWindow.Cache.Integrity
import DWindow.Cache.Disjoint
import DWindow.Cache.Assembly
import DWindow.Cache.Reload
import DWindow.Cache.SetURL
import DWindow.Cache.Workers
import DWindow.Cache.Download
import DWindow.E3D.Writer
import DWindow.E3D.Reader
import DWindow.E3D.Open
import DWindow.E3D.RoundTrip
import DWindow.E3D.Afresh
import DWindow.E3D.FilePos
import DWindow.E3D.Extents
import DWindow.E3D.Seek
import DWindow.E3D.LeafChain
import DWindow.Hook.Reads
import DWindow.Hook.Managers
import DWindow.NetBar.Server
import DWindow.NetBar.Seats
import DWindow.Lib.Framing
import DWindow.PGS.Chunks
import DWindow.PGS.Replay
import DWindow.Libass.Order
import DWindow.Mvc.OffsetFile
import DWindow.Srt.Pool
import DWindow.Runnable.Wakeups
import DWindow.Runnable.Destroy
import DWindow.Subtitle.Shown
import DWindow.Subtitle.Tables
import DWindow.Torrent.Coherent
import DWindow.Torrent.Delivery
import DWindow.PGS.Coverage
import DWindow.PGS.Found
import DWindow.Torrent.Progress
import DWindow.Torrent.Reach
import DWindow.Srt.RoundTrip
import DWindow.Srt.Capacity
import DWindow.Demuxer.Tables
import DWindow.VobSub.Lines
import DWindow.VobSub.Alike
import DWindow.Renderer.Deinterlace
import DWindow.Renderer.Pairing
import DWindow.Http.Framing
import DWindow.Http.Multipart
import DWindow.Http.Redirect
import DWindow.Http.Resent
import DWindow.Renderer.TextureAllocator
import DWindow.Hook.Tokens
import DWindow.Checksum.Video
import DWindow.UI.Playlist
import DWindow.UI.Frames
import DWindow.UI.Layout
import DWindow.UI.AsyncQueue
import DWindow.Hook.Isolation
import DWindow.UI.Cycles
import DWindow.UI.Refused
import DWindow.Cache.ReturnCode
import DWindow.Php.Passkeys
import DWindow.Php.Cards
import DWindow.UI.Bitmaps
import DWindow.X264Client.Frames
import DWindow.UI.ClipStack
import DWindow.UI.Stale
import DWindow.Net.Client
import DWindow.Net.LineBuffer
import DWindow.Mvc.Lossless
import DWindow.Cache.PreRead
import DWindow.Cache.ReadAhead
import DWindow.Srt.AssTimes
import DWindow.Subtitle.Lookup
import DWindow.Lib.Groups
import DWindow.Srt.Braces
import DWindow.Srt.Tags
import DWindow.Srt.FrameOffsets
import DWindow.Srt.LastLine
import DWindow.Srt.Overrun
import DWindow.Srt.Events
import DWindow.VobSub.Decode
import DWindow.VobSub.DecodeEnds
import DWindow.VobSub.Packets
import DWindow.VobSub.DecodeSafe
import DWindow.VobSub.Inside
import DWindow.Http.Utf8
import DWindow.Http.ReadContent
import DWindow.NetBar.Tables
import DWindow.Mpo.Scan
import DWindow.Mpo.Pictures
import DWindow.Http.Overrun
import DWindow.Demuxer.Nesting
import DWindow.Lib.LongDivision
import DWindow.Lib.Words
import DWindow.Checksum.BigNumber
import DWindow.Checksum.Shift
import DWindow.Checksum.Multiply
import DWindow.Checksum.DivideHelper
import DWindow.Checksum.Divide
import DWindow.Checksum.Digits
import DWindow.Checksum.Rsa
import DWindow.Demuxer.ChangeStart
import DWindow.Renderer.Reuse
import DWindow.Lua.Settings
import DWindow.Lua.Survival
import DWindow.ReportServer.Receive
import DWindow.Net.Explode
import DWindow.License.Mytime
import DWindow.UI.NextAsync
import DWindow.UI.SeekTell
import DWindow.UI.SegmentSeek
import DWindow.VobSub.Decoded
import DWindow.JM3D.Playback
import DWindow.VobSub.LineMemory
import DWindow.UI.RectEnds
import DWindow.E3D.Rijndael
import DWindow.Checksum.Sha1
import DWindow.Checksum.Signature
import DWindow.License.Activation
import DWindow.Mvc.FileBuffer
