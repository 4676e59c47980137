import EmbeddedTemplate.Ringbuffer.Fifo
import EmbeddedTemplate.Ringbuffer.Records
import EmbeddedTemplate.Ringbuffer.Calls
import EmbeddedTemplate.MemPool.Runs
import EmbeddedTemplate.MemPool.Restore
import EmbeddedTemplate.MemPool.FirstFit
import EmbeddedTemplate.Misc.SecondDatetime
import EmbeddedTemplate.Misc.List
import EmbeddedTemplate.Async.Basic
import EmbeddedTemplate.Async.Queue
import EmbeddedTemplate.Async.Ownership
import EmbeddedTemplate.Async.Looper
import EmbeddedTemplate.Async.Slots
import EmbeddedTemplate.Async.Delivery
import EmbeddedTemplate.Async.Registration
import EmbeddedTemplate.Async.Payload
import EmbeddedTemplate.Async.Timeouts
import EmbeddedTemplate.Async.TimeoutPass
import EmbeddedTemplate.Async.Shutdown
import EmbeddedTemplate.J1939.Transport
import EmbeddedTemplate.Atcmd.Receiver
import EmbeddedTemplate.Atcmd.Stream
import EmbeddedTemplate.Atcmd.Replies
import EmbeddedTemplate.Atcmd.Ipd
import EmbeddedTemplate.Atcmd.Chunks
import EmbeddedTemplate.Atcmd.Exec
import EmbeddedTemplate.Atcmd.Queries
import EmbeddedTemplate.Atcmd.IpString
import EmbeddedTemplate.DtuM35.Commands
import EmbeddedTemplate.DtuM35.Whole
import EmbeddedTemplate.Ltc6804.Pec
import EmbeddedTemplate.Ltc6804.Burst
import EmbeddedTemplate.I2c.Waveform
import EmbeddedTemplate.I2c.Hcs12Transfer
import EmbeddedTemplate.PlatformOs.Posix
import EmbeddedTemplate.Misc.Timer
import EmbeddedTemplate.Misc.Calendar
import EmbeddedTemplate.Drivers.Pcf212x
import EmbeddedTemplate.Shell.Quoted
import EmbeddedTemplate.Shell.Getline
import EmbeddedTemplate.Lib.SpiBus
import EmbeddedTemplate.Spi.Softspi
import EmbeddedTemplate.Spi.Exchange
import EmbeddedTemplate.I2c.Hcs12Wait
import EmbeddedTemplate.I2c.LockedI2c
import EmbeddedTemplate.I2c.Stretch
import EmbeddedTemplate.I2c.Hcs12Tasks
import EmbeddedTemplate.Drivers.Ad5259
import EmbeddedTemplate.Drivers.Dac856x
import EmbeddedTemplate.Drivers.Sd2405al
import EmbeddedTemplate.Ltc6804.Voltage
import EmbeddedTemplate.PidControl.Pidcontrol
import EmbeddedTemplate.PlatformOs.Ucos
import EmbeddedTemplate.Lib.Base128
import EmbeddedTemplate.Lib.ByteSeq
import EmbeddedTemplate.Mqtt.Packet
import EmbeddedTemplate.Mqtt.Publish
import EmbeddedTemplate.Mqtt.Connect
import EmbeddedTemplate.Mqtt.Subscribe
import EmbeddedTemplate.Mqtt.Accepted
import EmbeddedTemplate.Lib.Hoare
import EmbeddedTemplate.Mqtt.Client
import EmbeddedTemplate.Mqtt.Session
import EmbeddedTemplate.Mqtt.Conformance
import EmbeddedTemplate.Mqtt.History
import EmbeddedTemplate.Mqtt.Application
