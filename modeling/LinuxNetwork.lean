import LinuxNetwork.TimeWheelCountdown
import LinuxNetwork.SortTimerListQueue
import LinuxNetwork.ThreadPoolWakeups
import LinuxNetwork.ProcessPoolDispatch
import LinuxNetwork.CgiConnRequest
import LinuxNetwork.CgiConnBusy
import LinuxNetwork.NTimerServerIdle
import LinuxNetwork.NTimerServerEdges
import LinuxNetwork.TcpConnectionEcho
import LinuxNetwork.LinuxClient
import LinuxNetwork.NTimerServerAlarm
import LinuxNetwork.NTimerServerAccept
import LinuxNetwork.TcpServerStop
import LinuxNetwork.TcpServerFailures
import LinuxNetwork.ProcessPoolReaping
import LinuxNetwork.ProcessPoolNotifications
import LinuxNetwork.ProcessPoolRoundRobin
import LinuxNetwork.IoEpollQueue
import LinuxNetwork.TimeWheelCopy
import LinuxNetwork.EpollReactorDispatch
import LinuxNetwork.StressClient
import LinuxNetwork.TimeWheelRearm
import LinuxNetwork.SortTimerListEnds
import LinuxNetwork.SortTimerListCallbacks
import LinuxNetwork.EpollReactorRemoval
import LinuxNetwork.TcpConnectionSilent
import LinuxNetwork.SocketHandle
import LinuxNetwork.ProcessPoolFork
import LinuxNetwork.NTimerServerEpoll
import LinuxNetwork.IoEpollClosing
import LinuxNetwork.FdPassing
import LinuxNetwork.CgiConnBuffer
import LinuxNetwork.TimersAgree
import LinuxNetwork.TimerDestructors
import LinuxNetwork.CgiChild
import LinuxNetwork.ThreadPoolShutdown
import LinuxNetwork.TcpServerMain
import LinuxNetwork.EpollDemos
import LinuxNetwork.NTimerServerSigterm
import LinuxNetwork.NTimerServerExit
import LinuxNetwork.ThreadPoolDrains
