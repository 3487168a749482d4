import TokimoKvm.HostFsJailProofs
import TokimoKvm.HostFsContentsProofs
import TokimoKvm.RpcServerProofs
import TokimoKvm.RpcRemoteProofs
import TokimoKvm.FuseReaddirProofs
import TokimoKvm.ReadOnlyMountProofs
import TokimoKvm.FuseInodeProofs
import TokimoKvm.LifecycleProofs
import TokimoKvm.SandboxFilesProofs
import TokimoKvm.ShellTextProofs
import TokimoKvm.KernelCmdline
import TokimoKvm.ScriptCmdlineProofs
import TokimoKvm.MountCmdlineProofs
import TokimoKvm.QemuCommand
import TokimoKvm.VirtioPortProofs
import TokimoKvm.OptionTextProofs
import TokimoKvm.QemuOptionsProofs
import TokimoKvm.AckWriteProofs
import TokimoKvm.HostObjectProofs
import TokimoKvm.FuseHandleProofs
import TokimoKvm.FuseNumberingProofs
import TokimoKvm.UnicodeTextProofs
import TokimoKvm.WslListingProofs
import TokimoKvm.InitWaitProofs
import TokimoKvm.MacosVmThreadProofs
import TokimoKvm.HostFaults
import TokimoKvm.ShortReadProofs
import TokimoKvm.RootedPathProofs
import TokimoKvm.HostFsLookupProofs
import TokimoKvm.HostFsFaultProofs
import TokimoKvm.AgentPathProofs
import TokimoKvm.AttrChangeProofs
import TokimoKvm.GatedCallProofs
import TokimoKvm.RootCheckProofs
import TokimoKvm.RootSpellingProofs
import TokimoKvm.MountRunProofs
import TokimoKvm.GuestJailProofs
import TokimoKvm.LineReaderProofs
import TokimoKvm.MountRemoteProofs
import TokimoKvm.QmpClient
import TokimoKvm.QmpClientProofs
import TokimoKvm.RpcDeliveryProofs
import TokimoKvm.CallProgramProofs
import TokimoKvm.AgentProgramProofs
import TokimoKvm.GuestStack
import TokimoKvm.GuestStackProofs
import TokimoKvm.GuestProgressProofs
import TokimoKvm.GuestTreeProofs
