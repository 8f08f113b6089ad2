import Sensys.Scd.Launch
import Sensys.Scd.Cancel
import Sensys.Scd.Wakeup
import Sensys.Scd.Fifo
import Sensys.Scd.Completion
import Sensys.Qos.Reliable
import Sensys.Orte.RoundTrip
import Sensys.Util.GroupMembers
import Sensys.Util.GroupHistory
import Sensys.Util.GroupFile
import Sensys.Routed.Delivery
import Sensys.Cfgi.DtFns
import Sensys.Parser.Frame
import Sensys.Cfgi.GivenNames
import Sensys.Cfgi.Checks
import Sensys.Cfgi.FileTree
import Sensys.Cfgi.LexTokens
import Sensys.Util.Workflow
import Sensys.Analytics.Counter
import Sensys.Analytics.MeanMinMax
import Sensys.Analytics.SpatialRounds
import Sensys.Db.ResultSets
import Sensys.Db.SampleText
import Sensys.Db.ViewQuery
import Sensys.Octl.Call
import Sensys.Octl.Interval
import Sensys.Octl.SplitArgv
import Sensys.Util.Cli
import Sensys.Util.Prompt
import Sensys.Dispatch.EventStore
import Sensys.Sensor.Heartbeat
import Sensys.Sensor.SelCollector
import Sensys.Sensor.Snmp
import Sensys.Sensor.Syslog
import Sensys.Sensor.CoreLabels
import Sensys.Sensor.Mcedata
import Sensys.Analytics.LabelMask
import Sensys.Analytics.Threshold
import Sensys.Sensor.Errcounts
import Sensys.Scd.Request
import Sensys.Util.LoadErrors
import Sensys.Analytics.WorkflowRemove
import Sensys.Analytics.Genex
import Sensys.Qos.Integrity
