import Codex.TurnDiff.Tracker
import Codex.ApplyPatch.Verify
import Codex.ApplyPatch.RoundTrip
import Codex.Permissions.WritableRoots
import Codex.Permissions.ApprovedCommand
import Codex.Permissions.Materialized
import Codex.ExecPolicy.ModelPolicy
import Codex.RemoteControl.Outbound
import Codex.RemoteControl.Redelivery
import Codex.NetworkProxy.ManagedAllowlist
import Codex.NetworkProxy.EnvironmentPolicy
import Codex.NetworkProxy.AuthorizationPath
import Codex.NetworkProxy.AddressSpelling
import Codex.StreamParser.AssistantText
import Codex.ShellCommand.DangerousCommand
import Codex.History.WorldState
import Codex.History.Reconstruction
import Codex.Readiness.Waiting
import Codex.NoiseRelay.Delivery
import Codex.NoiseRelay.Admission
import Codex.MessageHistory.Lookup
import Codex.ExecServer.Interleaving
import Codex.ExecServer.Reads
import Codex.ApplyPatch.StreamingGrowth
import Codex.ApplyPatch.PatchedFile
import Codex.History.Trim
import Codex.History.TurnItems
import Codex.OutputTruncation.ToolResult
import Codex.WindowsSandbox.CommandLine
import Codex.ExecServer.StdinWrites
