import SimpleCoder.Lib.Exec
import SimpleCoder.Lib.Lines
import SimpleCoder.Lib.Keyed
import SimpleCoder.Lib.Editor
import SimpleCoder.Lib.Monitor
import SimpleCoder.Lib.Occurs
import SimpleCoder.Lib.EditScript
import SimpleCoder.Lib.Growing
import SimpleCoder.Lib.Fill
import SimpleCoder.Lib.Gaps
import SimpleCoder.Lib.Labelled
import SimpleCoder.Lib.Machine
import SimpleCoder.Lib.Threads
import SimpleCoder.Lib.Linearize
import SimpleCoder.Lib.Handshake
import SimpleCoder.Lib.Sorted
import SimpleCoder.Lib.Query
import SimpleCoder.Bytes
import SimpleCoder.Json
import SimpleCoder.Json.Lexer
import SimpleCoder.Config
import SimpleCoder.Util.Text
import SimpleCoder.Util.Utf8
import SimpleCoder.Util.Boundaries
import SimpleCoder.Json.Strings
import SimpleCoder.Json.Parser
import SimpleCoder.Json.RoundTrip
import SimpleCoder.Util.Base64
import SimpleCoder.Util.Base64RoundTrip
import SimpleCoder.Util.Diff
import SimpleCoder.Util.LcsTable
import SimpleCoder.Util.Hunks
import SimpleCoder.Util.ThreadQueue
import SimpleCoder.Net.HttpClient
import SimpleCoder.Net.Html
import SimpleCoder.Net.Whitespace
import SimpleCoder.Net.References
import SimpleCoder.Net.Entities
import SimpleCoder.Net.Markup
import SimpleCoder.Llm.Message
import SimpleCoder.Llm.ChatRequest
import SimpleCoder.Llm.RequestDecoder
import SimpleCoder.Llm.ChatResponse
import SimpleCoder.Llm.Reassembly
import SimpleCoder.Llm.ApiClient
import SimpleCoder.Llm.ValidText
import SimpleCoder.Llm.RequestText
import SimpleCoder.Llm.StreamedReply
import SimpleCoder.Agent.Tool
import SimpleCoder.Agent.Confirm
import SimpleCoder.Agent.ToolLoop
import SimpleCoder.Agent.LoopTrace
import SimpleCoder.Agent.GateSafety
import SimpleCoder.Agent.Agent
import SimpleCoder.Agent.Protocol
import SimpleCoder.Agent.Tools.Host
import SimpleCoder.Agent.Tools.Files
import SimpleCoder.Agent.Tools.Shell
import SimpleCoder.Agent.Tools.Web
import SimpleCoder.Agent.Tools.Builtin
import SimpleCoder.Agent.NeverThrows
import SimpleCoder.Agent.TolerantJson
import SimpleCoder.Agent.Truncation
import SimpleCoder.Mcp.ServerConfig
import SimpleCoder.Mcp.Transport
import SimpleCoder.Mcp.McpClient
import SimpleCoder.Mcp.Matching
import SimpleCoder.Mcp.Framing
import SimpleCoder.Mcp.Wire
import SimpleCoder.Mcp.McpTools
import SimpleCoder.Mcp.Discovery
import SimpleCoder.Mcp.Pagination
import SimpleCoder.Agent.Approval
import SimpleCoder.Mcp.Processes
import SimpleCoder.Agent.StrReplace
import SimpleCoder.Agent.PolicyRules
import SimpleCoder.Agent.ModelInForce
import SimpleCoder.Agent.ContextGauge
import SimpleCoder.Agent.Sendable
import SimpleCoder.Ui.TextWrap
import SimpleCoder.Ui.Markdown
import SimpleCoder.Ui.InputBar
import SimpleCoder.Ui.InputLayout
import SimpleCoder.Ui.InputDrawing
import SimpleCoder.Ui.ChatView
import SimpleCoder.Ui.Layout
import SimpleCoder.Ui.FencedCode
import SimpleCoder.Ui.Drawing
import SimpleCoder.Ui.DrawnText
import SimpleCoder.Ui.ConfirmDialog
import SimpleCoder.App.Command
import SimpleCoder.App.Skill
import SimpleCoder.App.SkillDocument
import SimpleCoder.App.SkillFiles
import SimpleCoder.App.ProjectTree
import SimpleCoder.App.Attachments
import SimpleCoder.App.Expansion
import SimpleCoder.App.ConfigFile
import SimpleCoder.App.ConfigText
import SimpleCoder.App.ConfigIntegers
import SimpleCoder.App.SystemPrompt
import SimpleCoder.App.CodeFence
import SimpleCoder.App.App
import SimpleCoder.App.OwnReply
import SimpleCoder.App.EventLoop
import SimpleCoder.App.TurnMachine
import SimpleCoder.App.Conversation
import SimpleCoder.App.TurnThreads
import SimpleCoder.App.Consent
import SimpleCoder.App.Stream
import SimpleCoder.Agent.SearchRequest
import SimpleCoder.Net.HttpTransfer
